/-
Soundness of the serial-execution filter. The stack of flags stays in step
with the activations, whether or not a frame was pushed for them, and while
the top flag is down the current strand is in series with every other of the
program, as long as no loop ends before its first iteration.
-/
import CilkTools.Cilksan.StrandOrder
import CilkTools.Cilksan.Driver

namespace Cilksan

/-! ## The program's steps -/

/-- Which regions of a loop were left iterations matters to accesses only. -/
theorem Inv.restale {p : Program} {c : CilkSan} {a : Activation} {as : List Activation}
    (hi : Inv p c) (hlog : p.log = []) (hp : p.acts = a :: as) (stale : Nat → Bool)
    (hst : a.isLoop = false → ∀ r, stale r = false) :
    Inv { p with acts := { a with stale } :: as } c := by
  obtain ⟨f, fs, hf, hm, hrest, -⟩ := hi.head hp
  have hw := hi.program
  have hc : c.log = [] := by simpa [hlog] using hi.log
  have hfull : ∀ {P : Activation → Prop}, (∀ b ∈ p.acts, P b) → (P a → P { a with stale }) →
      ∀ b ∈ { a with stale } :: as, P b := fun {P} h ha => by
    rw [hp, List.forall_mem_cons] at h
    exact List.forall_mem_cons.2 ⟨ha h.1, h.2⟩
  have hids := hw.ids
  have htail := hw.active
  have hold := hw.older
  rw [hp] at hids htail hold
  refine ⟨⟨?_, hfull hw.ends id, ?_, hfull hw.loops id, ?_, htail,
      fun h => hfull (hw.pendingActive h) id⟩, hi.wf, ?_,
    hi.apart, hi.pending, ?_, ?_⟩
  · simpa [Program.cur, hp] using hw.newest
  · simpa [Program.cur, hp] using hold
  · exact List.pairwise_cons.2 (List.pairwise_cons.1 hids)
  · rw [hf]
    exact .cons ⟨hm.ok, hm.length, hm.detacher, hm.loop, hm.pendLt, hm.synced,
      fun h => ⟨(hm.plain h).1, (hm.plain h).2.1, hst h⟩, hm.looping, hm.idle⟩ hrest
  · simpa [skips, hp] using hi.skipped
  · rw [show p.log = [] from hlog, hc]
    exact .nil

/-- Without accesses, the shadow stack follows the program whatever loops leave
to their regions. -/
structure Follows (p : Program) (c : CilkSan) : Prop where
  inv : Inv p c
  log : p.log = []
  done : ∀ a ∈ p.acts, a.isLoop = false → a.done = []
  chain : p.acts.Pairwise fun a b => p.dag.Path b.cur a.cur

namespace Follows

variable {p p' : Program} {c : CilkSan}

theorem ordered (hi : Follows p c) : p.Ordered := by
  have hm : ∀ {a}, a ∈ p.acts → ∃ f, Matches c.bags f a := fun ha => by
    obtain ⟨n, hn, rfl⟩ := List.mem_iff_getElem.1 ha
    exact ⟨_, hi.inv.frames.get (hi.inv.frames.length_eq ▸ hn) hn⟩
  refine ⟨hi.inv.program, fun a ha => ?_, fun a ha hact => ?_, hi.done, hi.chain⟩
  · obtain ⟨f, hf⟩ := hm ha
    exact hf.pendLt
  · obtain ⟨f, hf⟩ := hm ha
    exact (hf.idle hact).2.2

theorem sync {r : Nat} (hi : Follows p c) (hrun : p.running = true) (h : p.sync r = some p') :
    ∃ c', c.doSync r = some c' ∧ Inv p' c' := by
  have h' := h
  simp only [Program.sync] at h'
  split at h'
  · next a as hp =>
    split at h'
    · next hc =>
      cases h'
      -- The head is taken for one that no iterations were left to, and restored.
      have hi₀ := hi.inv.restale hi.log hp (fun _ => false) fun _ _ => rfl
      obtain ⟨c', hc', hi'⟩ := hi₀.sync (r := r) (by simpa [Program.running, hp] using hrun)
        (by simp [SyncOk]) (by simp only [Program.sync]; exact if_pos hc)
      refine ⟨c', hc', hi'.restale (a := { a with
        cur := p.dag.size, pend :=
          Function.update a.pend r [], stale := fun _ => false }) hi.log rfl a.stale fun hl => ?_⟩
      obtain ⟨f, fs, -, hm, -⟩ := hi.inv.head hp
      exact (hm.plain hl).2.2
    · cases h'
  · cases h'

theorem step {h : Hook} (hi : Follows p c) (hna : ∀ i, h ≠ .access i)
    (hok : ∀ r, h = .loopEnd r → p.pendingLoop = false) (hs : p.step h = some p') :
    ∃ c', c.step h = some c' ∧ Follows p' c' ∧ p.Reaches p' := by
  obtain ⟨c', hc', hi'⟩ : ∃ c', c.step h = some c' ∧ Inv p' c' := by
    cases h with
    | sync r =>
      simp only [Program.step, Option.ite_none_right_eq_some] at hs
      exact hi.sync hs.1 hs.2
    | loopEnd r => exact hi.inv.step (hok r rfl) hs
    | _ => exact hi.inv.step trivial hs
  have hst := hi.ordered.step hs
  exact ⟨c', hc', ⟨hi', by rw [Program.log_step hna hs, hi.log], Program.done_step hi.done hs,
    hi.ordered.chain_of_steps hst⟩, .tail .refl ⟨hi.ordered, hst⟩⟩

end Follows

/-! ## The flags of a stack of activations -/

/-- An activation's own flag is there once more for each of the two that a
function run as part of it pushed, and below it the one it was entered with. A
flag that is down says that the activation, called in series, has synced. -/
inductive Flags : List Activation → ParallelExecution → Prop
  | root {a} (top : Bool) (hk : a.kind = .root) (hr : a.regions = 0) :
    Flags [a] (List.replicate (2 * a.inlined) top ++ [top])
  | cons {a as pe} (top entry : Bool) (hf : Flags as pe) (he : pe.head? = some entry)
      (hk : a.kind ≠ .root)
      (hd : top = false → entry = false ∧ a.kind = .called ∧ ∀ r, a.pend r = [])
      (hs : a.kind = .spawned → entry = true) :
    Flags (a :: as) (List.replicate (2 * a.inlined) top ++ top :: entry :: pe)

namespace Flags

variable {a a' b : Activation} {as : List Activation} {pe : ParallelExecution}

theorem exists_head (h : Flags as pe) : ∃ top, pe.head? = some top := by
  cases h with
  | @root a top | @cons a _ _ top =>
    refine ⟨top, ?_⟩
    cases hn : 2 * a.inlined <;> simp [List.replicate_succ]

theorem top_of_head {n : Nat} {top t : Bool} {rest : List Bool}
    (h : (List.replicate n top ++ top :: rest).head? = some t) : top = t := by
  cases n with
  | zero => simpa using h
  | succ n => simpa [List.replicate_succ] using h

/-- An activation of the stack goes on; what it has not synced is less, or its
flag is up. -/
theorem setHead (h : Flags (a :: as) pe) (hk : a'.kind = a.kind) (hn : a'.inlined = a.inlined)
    (hr : a'.regions = a.regions) (hp : pe.head? = some true ∨ ∀ r, a.pend r = [] →
      a'.pend r = []) :
    Flags (a' :: as) pe := by
  cases h with
  | root top hk' hr' =>
    rw [← hn]
    exact .root top (hk.trans hk') (hr.trans hr')
  | cons top entry hf he hk' hd hs =>
    rw [← hn]
    refine .cons top entry hf he (hk ▸ hk') (fun ht => ?_) (fun h => hs (hk ▸ h))
    obtain ⟨hent, hcall, hpe⟩ := hd ht
    refine ⟨hent, hk.trans hcall, fun r => ?_⟩
    rcases hp with hp | hp
    · have := top_of_head hp
      rw [ht] at this
      cases this
    · exact hp r (hpe r)

/-- A function that runs as part of its caller pushes two flags. -/
theorem inlined (a' : Activation) (h : Flags (a :: as) pe) (hk : a'.kind = a.kind)
    (hn : a'.inlined = a.inlined + 1) (hr : a'.regions = a.regions) (hp : a'.pend = a.pend) :
    ∃ pe', pe.enter = some pe' ∧ Flags (a' :: as) pe' := by
  obtain ⟨top, htop⟩ := h.exists_head
  refine ⟨top :: top :: pe, by simp [ParallelExecution.enter, htop], ?_⟩
  cases h with
  | root top' hk' hr' =>
    obtain rfl := top_of_head htop
    have := Flags.root (a := a') top' (hk.trans hk') (hr.trans hr')
    rwa [hn, Nat.mul_succ, List.replicate_succ, List.replicate_succ] at this
  | cons top' entry hf he hk' hd hs =>
    obtain rfl := top_of_head htop
    have := Flags.cons (a := a') top' entry hf he (hk ▸ hk') (by rw [hk, hp]; exact hd)
      (by rw [hk]; exact hs)
    rwa [hn, Nat.mul_succ, List.replicate_succ, List.replicate_succ] at this

theorem leave_inlined (a' : Activation) (h : Flags (a :: as) pe) (hlt : 0 < a.inlined)
    (hk : a'.kind = a.kind)
    (hn : a'.inlined = a.inlined - 1) (hr : a'.regions = a.regions) (hp : a'.pend = a.pend) :
    ∃ pe', pe.leave = some pe' ∧ Flags (a' :: as) pe' := by
  have htwo : 2 * a.inlined = 2 * a'.inlined + 1 + 1 := by omega
  cases h with
  | root top hk' hr' =>
    refine ⟨_, ?_, .root (a := a') top (hk.trans hk') (hr.trans hr')⟩
    rw [htwo, List.replicate_succ, List.replicate_succ]
    rfl
  | cons top entry hf he hk' hd hs =>
    refine ⟨_, ?_, .cons (a := a') top entry hf he (hk ▸ hk') (by rw [hk, hp]; exact hd)
      (by rw [hk]; exact hs)⟩
    rw [htwo, List.replicate_succ, List.replicate_succ]
    rfl

theorem push {top : Bool} (h : Flags as pe) (htop : pe.head? = some top) (hn : a.inlined = 0)
    (hk : a.kind ≠ .root)
    (hd : top = false → a.kind = .called ∧ ∀ r, a.pend r = [])
    (hs : a.kind = .spawned → top = true) : ∃ pe', pe.enter = some pe' ∧ Flags (a :: as) pe' := by
  refine ⟨top :: top :: pe, by simp [ParallelExecution.enter, htop], ?_⟩
  have := Flags.cons (a := a) top top h htop hk (fun ht => ⟨ht, hd ht⟩) hs
  simpa [hn] using this

theorem leave (h : Flags (a :: as) pe) (hn : a.inlined = 0) (hk : a.kind ≠ .root) :
    ∃ entry pe', pe.leave = some pe' ∧ Flags as pe' ∧ pe'.head? = some entry ∧
      (a.kind = .spawned → entry = true) := by
  cases h with
  | root top hk' => exact absurd hk' hk
  | cons top entry hf he hk' hd hs =>
    exact ⟨entry, _, by simp [hn, ParallelExecution.leave], hf, he, hs⟩

theorem detach (h : Flags (a :: as) pe) (hn : a.inlined = 0) :
    ∃ pe', pe.detach = some pe' ∧ pe'.head? = some true ∧ Flags (a :: as) pe' := by
  cases h with
  | root top hk hr =>
    exact ⟨[true], by simp [hn, ParallelExecution.detach], rfl,
      by simpa [hn] using Flags.root true hk hr⟩
  | @cons _ _ pe top entry hf he hk hd hs =>
    refine ⟨true :: entry :: pe, by simp [hn, ParallelExecution.detach], rfl, ?_⟩
    simpa [hn] using Flags.cons (a := a) true entry hf he hk (fun h => by cases h) hs

/-- A sync of a frame with nothing left makes the flag what it was at entry. -/
theorem sync (synced : Bool) (h : Flags (a :: as) pe) (hn : a.inlined = 0) (hr : 0 < a.regions)
    (hsync : synced = true → a.isLoop = false ∧ ∀ r, a.pend r = []) :
    ∃ pe', pe.sync synced = some pe' ∧ Flags (a :: as) pe' := by
  cases synced with
  | false => exact ⟨pe, by simp [ParallelExecution.sync], h⟩
  | true =>
    obtain ⟨hl, hp⟩ := hsync rfl
    cases h with
    | root top hk hr' => omega
    | @cons _ _ pe top entry hf he hk hd hs =>
      have hcall : entry = false → a.kind = .called := fun hent => by
        cases hka : a.kind with
        | root => exact absurd hka hk
        | called => rfl
        | spawned =>
          rw [hs hka] at hent
          cases hent
        | loop id => simp [Activation.isLoop, hka] at hl
      refine ⟨entry :: entry :: pe, by simp [hn, ParallelExecution.sync], ?_⟩
      simpa [hn] using Flags.cons (a := a) entry entry hf he hk
        (fun hent => ⟨hent, hcall hent, hp⟩) hs

/-- With the top flag down, all that is being run was called in series. -/
theorem serial_of_down (h : Flags as pe) (hdown : pe.head? = some false)
    (hlt : ∀ a ∈ as, ∀ r, a.regions ≤ r → a.pend r = []) :
    ∀ a ∈ as, a.Serial ∧ ∀ r, a.pend r = [] := by
  induction h with
  | root top hk hr => simpa [Activation.Serial, hk, hr] using hlt
  | cons top entry hf he hk hd hs ih =>
    rw [List.forall_mem_cons] at hlt ⊢
    obtain ⟨hent, hcall, hp⟩ := hd (top_of_head hdown)
    exact ⟨⟨.inr hcall, hp⟩, ih (by rw [he, hent]) hlt.2⟩

end Flags

/-! ## The driver -/

/-- Where the trace has got to, as far as the flags go: the regions of a loop
that ended count as synced, and a loop that was begun has its two flags. -/
def Trace.Flagged (t : Trace) (pe : ParallelExecution) : Prop :=
  match t.awaiting with
  | some r => t.program.pendingLoop = false ∧ ∃ a as, t.program.acts = a :: as ∧
      Flags ({ a with pend := Function.update a.pend r [] } :: as) pe
  | none =>
    if t.program.pendingLoop then ∃ top entry pe', pe = top :: entry :: pe' ∧
      pe'.head? = some entry ∧ (top = false → entry = false) ∧ Flags t.program.acts pe'
    else Flags t.program.acts pe

/-- The driver follows a trace. -/
structure Tracks (t : Trace) (d : Driver) : Prop where
  follows : Follows t.program d.tool
  flagged : t.Flagged d.parallelExecution
  detached : ∀ body, t.detached = some body →
    t.awaiting = none ∧ d.parallelExecution.head? = some true

/-- The loop that ends has begun an iteration. -/
def TraceOk (t : Trace) : DriverHook → Prop
  | .afterLoop _ => t.program.pendingLoop = false
  | _ => True

namespace Tracks

variable {t t' : Trace} {d : Driver}

theorem flags (hi : Tracks t d) (ha : t.awaiting = none) (hrun : t.program.running = true) :
    Flags t.program.acts d.parallelExecution := by
  have h := hi.flagged
  have hpl : t.program.pendingLoop = false := by
    simp only [Program.running, Bool.and_eq_true, Bool.not_eq_true'] at hrun
    exact hrun.1
  simpa [Trace.Flagged, ha, hpl] using h

theorem advance_eq {p : Option Program} (h : t.advance p = some t') :
    t.detached = none ∧ t.awaiting = none ∧ ∃ p', p = some p' ∧ t' = { t with program := p' } := by
  simp only [Trace.advance] at h
  split at h
  · next hc =>
    obtain ⟨p', hp, rfl⟩ := Option.map_eq_some_iff.1 h
    exact ⟨hc.1, hc.2, p', hp, rfl⟩
  · cases h

theorem of_advance {p' : Program} {tool : CilkSan} {pe : ParallelExecution} (hd : t.detached = none)
    (ha : t.awaiting = none) (hf : Follows p' tool) (hp : p'.pendingLoop = false)
    (hfl : Flags p'.acts pe) : Tracks { t with program := p' } ⟨tool, pe⟩ :=
  ⟨hf, by simpa [Trace.Flagged, ha, hp] using hfl, fun body h => by rw [hd] at h; cases h⟩

theorem pendingLoop_of_running {p : Program} (h : p.running = true) : p.pendingLoop = false := by
  simp only [Program.running, Bool.and_eq_true, Bool.not_eq_true'] at h
  exact h.1

theorem funcEntry {m : Bool} {n : Nat} (hi : Tracks t d) (hs : t.step (.funcEntry m n) = some t') :
    ∃ d', d.step (.funcEntry m n) = some d' ∧ Tracks t' d' ∧ t.program.Reaches t'.program := by
  obtain ⟨hd, ha, p', hp', rfl⟩ := advance_eq hs
  obtain ⟨c', hc', hf', hr⟩ := hi.follows.step (by simp) (by simp) hp'
  simp only [Program.step, Option.ite_none_right_eq_some, Program.funcEntry] at hp'
  obtain ⟨hrun, hp'⟩ := hp'
  have hfl := hi.flags ha hrun
  split at hp'
  · next a as hacts =>
    rw [hacts] at hfl
    obtain ⟨pe', hpe, hfl', hpl⟩ : ∃ pe', d.parallelExecution.enter = some pe' ∧ Flags p'.acts pe' ∧
        p'.pendingLoop = false := by
      have hpl := pendingLoop_of_running hrun
      split at hp'
      all_goals cases hp'
      · obtain ⟨pe', hpe, hfl'⟩ := hfl.inlined { a with
          cur := t.program.dag.size, inlined := a.inlined + 1 } rfl rfl rfl rfl
        exact ⟨pe', hpe, hfl', hpl⟩
      · obtain ⟨top, htop⟩ := hfl.exists_head
        obtain ⟨pe', hpe, hfl'⟩ :=
          hfl.push (a := { kind := .called, regions := n, cur := t.program.dag.size }) htop rfl
            (by simp) (by simp) (by simp)
        exact ⟨pe', hpe, hfl', hpl⟩
    replace hc' : d.tool.funcEntry m n = some c' := hc'
    exact ⟨⟨c', pe'⟩, by simp [Driver.step, Driver.funcEntry, hpe, hc'],
      of_advance hd ha hf' hpl hfl', hr⟩
  · cases hp'

theorem funcExit (hi : Tracks t d) (hs : t.step .funcExit = some t') :
    ∃ d', d.step .funcExit = some d' ∧ Tracks t' d' ∧ t.program.Reaches t'.program := by
  obtain ⟨hd, ha, p', hp', rfl⟩ := advance_eq hs
  obtain ⟨c', hc', hf', hr⟩ := hi.follows.step (by simp) (by simp) hp'
  simp only [Program.step, Option.ite_none_right_eq_some, Program.funcExit] at hp'
  obtain ⟨hrun, hp'⟩ := hp'
  have hfl := hi.flags ha hrun
  split at hp'
  · next a as hacts =>
    rw [hacts] at hfl
    obtain ⟨pe', hpe, hfl', hpl⟩ : ∃ pe', d.parallelExecution.leave = some pe' ∧ Flags p'.acts pe' ∧
        p'.pendingLoop = false := by
      have hpl := pendingLoop_of_running hrun
      split at hp'
      · next hlt =>
        cases hp'
        obtain ⟨pe', hpe, hfl'⟩ := hfl.leave_inlined { a with
          cur := t.program.dag.size, inlined := a.inlined - 1 } hlt rfl rfl rfl rfl
        exact ⟨pe', hpe, hfl', hpl⟩
      · next hlt =>
        split at hp'
        · next b bs hk =>
          split at hp'
          · cases hp'
            obtain ⟨entry, pe', hpe, hfl', -⟩ := hfl.leave (by omega) (by simp [hk])
            exact ⟨pe', hpe, hfl'.setHead rfl rfl rfl (.inr fun r h => h), hpl⟩
          · cases hp'
        · cases hp'
    replace hc' : d.tool.funcExit = some c' := hc'
    exact ⟨⟨c', pe'⟩, by simp [Driver.step, Driver.funcExit, hpe, hc'],
      of_advance hd ha hf' hpl hfl', hr⟩
  · cases hp'

theorem detach {body : Bool} (hi : Tracks t d) (hs : t.step (.detach body) = some t') :
    ∃ d', d.step (.detach body) = some d' ∧ Tracks t' d' ∧ t.program.Reaches t'.program := by
  simp only [Trace.step, Trace.detach] at hs
  split at hs
  · next hc =>
    obtain ⟨hd, ha, hrun, hin⟩ := hc
    cases hs
    have hfl := hi.flagged
    simp only [Trace.Flagged, ha] at hfl
    obtain ⟨pe', hpe, htop, hfl'⟩ : ∃ pe', d.parallelExecution.detach = some pe' ∧
        pe'.head? = some true ∧ { t with detached := some body }.Flagged pe' := by
      simp only [Trace.Flagged, ha]
      split at hfl
      · next hpl =>
        obtain ⟨top, entry, pe', hpe, he, -, hfl⟩ := hfl
        exact ⟨true :: entry :: pe', by simp [hpe, ParallelExecution.detach], rfl, by
          rw [if_pos hpl]; exact ⟨true, entry, pe', rfl, he, (fun h => by cases h), hfl⟩⟩
      · next hpl =>
        cases hacts : t.program.acts with
        | nil =>
          rw [hacts] at hfl
          cases hfl
        | cons a as =>
          rw [hacts] at hfl
          obtain ⟨pe', hpe, htop, hfl'⟩ := hfl.detach (hin a (by simp [hacts]))
          exact ⟨pe', hpe, htop, by rw [if_neg hpl]; exact hfl'⟩
    exact ⟨⟨d.tool, pe'⟩, by simp [Driver.step, Driver.detach, hpe],
      ⟨hi.follows, hfl', fun _ _ => ⟨ha, htop⟩⟩, .refl⟩
  · cases hs

theorem handleLoop_eq {p : Program} {c : CilkSan} {a : Activation} {as : List Activation}
    (hi : Inv p c) (hp : p.acts = a :: as) : c.handleLoop = some (a.isLoop || p.pendingLoop) := by
  obtain ⟨f, fs, hf, hm, -⟩ := hi.head hp
  simp [CilkSan.handleLoop, hf, hm.loop, hi.pending]

theorem task {body : Bool} {n : Nat} (hi : Tracks t d) (hs : t.step (.task body n) = some t') :
    ∃ d', d.step (.task body n) = some d' ∧ Tracks t' d' ∧ t.program.Reaches t'.program := by
  simp only [Trace.step, Trace.task] at hs
  split at hs
  · next hd =>
    obtain ⟨p', hp', rfl⟩ := Option.map_eq_some_iff.1 hs
    obtain ⟨ha, htop⟩ := hi.detached body hd
    cases body with
    | false =>
      replace hp' : t.program.step (.task n) = some p' := hp'
      obtain ⟨c', hc', hf', hr⟩ := hi.follows.step (by simp) (by simp) hp'
      simp only [Program.step, Option.ite_none_right_eq_some, Program.task] at hp'
      obtain ⟨hrun, hp'⟩ := hp'
      have hfl := hi.flags ha hrun
      split at hp'
      · next a as hacts =>
        split at hp'
        · cases hp'
          rw [hacts] at hfl
          obtain ⟨pe', hpe, hfl'⟩ :=
            hfl.push (a := { kind := .spawned, regions := n, cur := t.program.dag.size }) htop
              rfl (by simp) (fun h => by cases h) (fun _ => rfl)
          have hh := handleLoop_eq hi.follows.inv hacts
          replace hc' : d.tool.doEnterHelper n = some c' := hc'
          refine ⟨⟨c', pe'⟩, by simp [Driver.step, Driver.task, hh, hpe, hc'],
            ⟨hf', ?_, fun _ h => by cases h⟩, hr⟩
          have hpl := pendingLoop_of_running hrun
          simpa [Trace.Flagged, ha, Program.advance, hpl] using hfl'
        · cases hp'
      · cases hp'
    | true =>
      replace hp' : t.program.step (.loopIterationBegin n) = some p' := hp'
      obtain ⟨c', hc', hf', hr⟩ := hi.follows.step (by simp) (by simp) hp'
      have hfl := hi.flagged
      simp only [Trace.Flagged, ha] at hfl
      simp only [Program.step, Program.loopIterationBegin] at hp'
      obtain ⟨hh, hpl', hfl'⟩ : d.tool.handleLoop = some true ∧ p'.pendingLoop = false ∧
          Flags p'.acts d.parallelExecution := by
        split at hp'
        · next hpl =>
          split at hp'
          · next a as hacts =>
            cases hp'
            rw [if_pos hpl] at hfl
            obtain ⟨top, entry, pe', hpe, he, -, hfl⟩ := hfl
            rw [hpe, List.head?_cons, Option.some.injEq] at htop
            refine ⟨by rw [handleLoop_eq hi.follows.inv hacts, hpl, Bool.or_true], rfl, ?_⟩
            rw [hpe, htop]
            rw [hacts] at hfl
            exact .cons true entry hfl he (by simp) (fun h => by cases h) (fun h => by cases h)
          · cases hp'
        · next hpl =>
          split at hp'
          · next a b bs hacts =>
            split at hp'
            · next hc =>
              cases hp'
              rw [if_neg hpl, hacts] at hfl
              exact ⟨by rw [handleLoop_eq hi.follows.inv hacts, hc.1, Bool.true_or],
                by simpa [Program.advance] using hpl,
                hfl.setHead rfl rfl rfl (.inr fun r h => h)⟩
            · cases hp'
          · cases hp'
      replace hc' : d.tool.doLoopIterationBegin n = some c' := hc'
      refine ⟨⟨c', d.parallelExecution⟩, by simp [Driver.step, Driver.task, hh, hc'],
        ⟨hf', ?_, fun _ h => by cases h⟩, hr⟩
      simpa [Trace.Flagged, ha, hpl'] using hfl'
  · cases hs

theorem taskExit {body : Bool} {r : Nat} (hi : Tracks t d)
    (hs : t.step (.taskExit body r) = some t') :
    ∃ d', d.step (.taskExit body r) = some d' ∧ Tracks t' d' ∧ t.program.Reaches t'.program := by
  obtain ⟨hd, ha, p', hp', rfl⟩ := advance_eq hs
  cases body with
  | false =>
    replace hp' : t.program.step (.taskExit r) = some p' := hp'
    obtain ⟨c', hc', hf', hr⟩ := hi.follows.step (by simp) (by simp) hp'
    simp only [Program.step, Option.ite_none_right_eq_some, Program.taskExit] at hp'
    obtain ⟨hrun, hp'⟩ := hp'
    have hfl := hi.flags ha hrun
    have hpl := pendingLoop_of_running hrun
    split at hp'
    · next a b bs hacts =>
      split at hp'
      · next hc =>
        cases hp'
        rw [hacts] at hfl
        -- The task was entered with its flag up, and so is the parent's.
        obtain ⟨entry, pe', hpe, hfl', he, hent⟩ := hfl.leave hc.2.1 (by simp [hc.1])
        rw [hent hc.1] at he
        have hh := handleLoop_eq hi.follows.inv hacts
        replace hc' : d.tool.doLeave r = some c' := hc'
        exact ⟨⟨c', pe'⟩, by simp [Driver.step, Driver.taskExit, hh, hpe, hc'],
          of_advance hd ha hf' hpl (hfl'.setHead rfl rfl rfl (.inl he)), hr⟩
      · cases hp'
    · cases hp'
  | true =>
    replace hp' : t.program.step .loopIterationEnd = some p' := hp'
    obtain ⟨c', hc', hf', hr⟩ := hi.follows.step (by simp) (by simp) hp'
    simp only [Program.step, Option.ite_none_right_eq_some, Program.loopIterationEnd] at hp'
    obtain ⟨hrun, hp'⟩ := hp'
    have hfl := hi.flags ha hrun
    have hpl := pendingLoop_of_running hrun
    split at hp'
    · next a b bs hacts =>
      split at hp'
      · next hl =>
        cases hp'
        rw [hacts] at hfl
        have hh : d.tool.handleLoop = some true := by
          rw [handleLoop_eq hi.follows.inv hacts, hl, Bool.true_or]
        replace hc' : d.tool.doLoopIterationEnd = some c' := hc'
        exact ⟨⟨c', d.parallelExecution⟩, by simp [Driver.step, Driver.taskExit, hh, hc'],
          of_advance hd ha hf' hpl (hfl.setHead rfl rfl rfl (.inr fun _ _ => rfl)), hr⟩
      · cases hp'
    · cases hp'

/-- A sync, with the flags as they are. -/
theorem doSync {p p' : Program} {c : CilkSan} {pe : ParallelExecution} {r : Nat} (hi : Follows p c)
    (hfl : ∃ a as, p.acts = a :: as ∧
      Flags ({ a with pend := Function.update a.pend r [] } :: as) pe)
    (hs : p.step (.sync r) = some p') :
    ∃ c' a as, c.doSync r = some c' ∧ Follows p' c' ∧ p.Reaches p' ∧ p'.pendingLoop = false ∧
    p'.acts = a :: as ∧
      a.inlined = 0 ∧ 0 < a.regions ∧ Flags (a :: as) pe := by
  obtain ⟨c', hc', hf', hr⟩ := hi.step (by simp) (by simp) hs
  simp only [Program.step, Option.ite_none_right_eq_some, Program.sync] at hs
  obtain ⟨hrun, hs⟩ := hs
  obtain ⟨a, as, hacts, hfl⟩ := hfl
  rw [hacts] at hs
  simp only at hs
  split at hs
  · next hc =>
    cases hs
    have hpl := pendingLoop_of_running hrun
    exact ⟨c', _, as, hc', hf', hr, hpl, rfl, hc.1, Nat.lt_of_le_of_lt (Nat.zero_le r) hc.2,
      hfl.setHead rfl rfl rfl (.inr fun _ h => h)⟩
  · cases hs

/-- What a sync makes empty does no harm to the flags. -/
theorem flags_sync {as : List Activation} {pe : ParallelExecution} (h : Flags as pe) (r : Nat) :
    ∃ a bs, as = a :: bs ∧ Flags ({ a with pend := Function.update a.pend r [] } :: bs) pe := by
  obtain ⟨a, bs, rfl⟩ : ∃ a bs, as = a :: bs := by cases h <;> exact ⟨_, _, rfl⟩
  refine ⟨a, bs, rfl, h.setHead rfl rfl rfl (.inr fun r' hr' => ?_)⟩
  simp only [Function.update_apply]
  split
  · rfl
  · exact hr'

theorem detachContinue {body unwind : Bool} {r : Nat} (hi : Tracks t d)
    (hs : t.step (.detachContinue body unwind r) = some t') :
    ∃ d', d.step (.detachContinue body unwind r) = some d' ∧ Tracks t' d' ∧
    t.program.Reaches t'.program := by
  obtain ⟨hd, ha, p', hp', rfl⟩ := advance_eq hs
  obtain ⟨p₁, hp₁, hp'⟩ :
      ∃ p₁, (if unwind then t.program.step (.sync r) else some t.program) = some p₁ ∧
      (if body then some p₁ else p₁.step (.detachContinue r)) = some p' := by
    cases unwind
    · exact ⟨_, rfl, hp'⟩
    · exact Option.bind_eq_some_iff.1 hp'
  have hstep : ∀ {c₁ : CilkSan}, (if unwind then d.tool.doSync r else some d.tool) = some c₁ →
      d.step (.detachContinue body unwind r) = (if body then some c₁ else c₁.doDetachContinue r).map
        fun tool => { d with tool } := fun {c₁} h => by
    cases unwind <;> cases body <;>
      simp only [Bool.false_eq_true, if_true, if_false, Option.some.injEq] at h <;>
      simp [Driver.step, Driver.detachContinue, h, Option.map_eq_bind]
  obtain ⟨c₁, hc₁, hf₁, hr₁, hfl₁⟩ :
      ∃ c₁, (if unwind then d.tool.doSync r else some d.tool) = some c₁ ∧
      Follows p₁ c₁ ∧ t.program.Reaches p₁ ∧
      { t with program := p₁ }.Flagged d.parallelExecution := by
    split at hp₁
    · next hu =>
      have hp := hp₁
      simp only [Program.step, Option.ite_none_right_eq_some] at hp
      obtain ⟨c₁, a, as, hc₁, hf₁, hr₁, hpl, hacts, -, -, hfl⟩ :=
        doSync hi.follows (flags_sync (hi.flags ha hp.1) r) hp₁
      refine ⟨c₁, by rw [if_pos hu]; exact hc₁, hf₁, hr₁, ?_⟩
      simpa [Trace.Flagged, ha, hpl, hacts] using hfl
    · next hu =>
      cases hp₁
      exact ⟨d.tool, by rw [if_neg hu], hi.follows, .refl, hi.flagged⟩
  have hno : ∀ body', t.detached = some body' →
    t.awaiting = none ∧ d.parallelExecution.head? = some true :=
    fun body' h => by rw [hd] at h; cases h
  cases body with
  | true =>
    cases hp'
    exact ⟨⟨c₁, d.parallelExecution⟩, hstep hc₁, ⟨hf₁, hfl₁, hno⟩, hr₁⟩
  | false =>
    replace hp' : p₁.step (.detachContinue r) = some p' := hp'
    obtain ⟨c', hc', hf', hr⟩ := hf₁.step (by simp) (by simp) hp'
    replace hc' : c₁.doDetachContinue r = some c' := hc'
    have hsame : p' = p₁ := by
      simp only [Program.step, Option.ite_none_right_eq_some, Program.detachContinue] at hp'
      obtain ⟨-, hp'⟩ := hp'
      split at hp'
      all_goals cases hp'
      rfl
    subst hsame
    exact ⟨⟨c', d.parallelExecution⟩, by rw [hstep hc₁]; simp [hc'], ⟨hf', hfl₁, hno⟩, hr₁.trans hr⟩

theorem sync {r : Nat} (hi : Tracks t d) (hs : t.step (.sync r) = some t') :
    ∃ d', d.step (.sync r) = some d' ∧ Tracks t' d' ∧ t.program.Reaches t'.program := by
  simp only [Trace.step, Trace.sync] at hs
  split at hs
  · next hc =>
    obtain ⟨hd, ha⟩ := hc
    obtain ⟨p', hp', rfl⟩ := Option.map_eq_some_iff.1 hs
    have hp := hp'
    simp only [Program.step, Option.ite_none_right_eq_some] at hp
    have hfl : ∃ a as, t.program.acts = a :: as ∧
        Flags ({ a with pend := Function.update a.pend r [] } :: as) d.parallelExecution := by
      rcases ha with ha | ha
      · exact flags_sync (hi.flags ha hp.1) r
      · have := hi.flagged
        simp only [Trace.Flagged, ha] at this
        exact this.2
    obtain ⟨c', a, as, hc', hf', hr, hpl, hacts, hin, hreg, hfl'⟩ := doSync hi.follows hfl hp'
    -- The flag goes down only when the tool sees nothing left.
    obtain ⟨f, fs, hf, hm, -⟩ := hf'.inv.head hacts
    have hsync :
        c'.isLocalSynced = some (!f.isLoopFrame && !(f.pbags.getD []).any Option.isSome) := by
      simp [CilkSan.isLocalSynced, hf]
    obtain ⟨pe', hpe, hfl''⟩ :=
      hfl'.sync (!f.isLoopFrame && !(f.pbags.getD []).any Option.isSome) hin hreg
        fun h => by
          simp only [Bool.and_eq_true, Bool.not_eq_true'] at h
          have hl : a.isLoop = false := hm.loop ▸ h.1
          exact ⟨hl, Activation.pend_of_unsynced hm ((hm.unsynced_iff hl).1 h.2)⟩
    refine ⟨⟨c', pe'⟩, by simp [Driver.step, Driver.sync, hc', hsync, hpe],
      ⟨hf', ?_, fun body h => by rw [show t.detached = some body from h] at hd; cases hd⟩, hr⟩
    simpa [Trace.Flagged, hpl, hacts] using hfl''
  · cases hs

theorem beforeLoop (hi : Tracks t d) (hs : t.step .beforeLoop = some t') :
    ∃ d', d.step .beforeLoop = some d' ∧ Tracks t' d' ∧ t.program.Reaches t'.program := by
  obtain ⟨hd, ha, p', hp', rfl⟩ := advance_eq hs
  obtain ⟨c', hc', hf', hr⟩ := hi.follows.step (by simp) (by simp) hp'
  cases hc'
  simp only [Program.step, Option.ite_none_right_eq_some, Program.loopBegin] at hp'
  obtain ⟨hrun, hp'⟩ := hp'
  have hfl := hi.flags ha hrun
  split at hp'
  · next a as hacts =>
    split at hp'
    all_goals cases hp'
    obtain ⟨top, htop⟩ := hfl.exists_head
    refine ⟨⟨d.tool.doLoopBegin, top :: top :: d.parallelExecution⟩,
      by simp [Driver.step, Driver.beforeLoop, ParallelExecution.enter, htop],
      ⟨hf', ?_, fun body h => by rw [show t.detached = some body from h] at hd; cases hd⟩, hr⟩
    simp only [Trace.Flagged, ha, if_true]
    exact ⟨top, top, _, rfl, htop, id, hfl⟩
  · cases hp'

theorem afterLoop {r : Nat} (hi : Tracks t d) (hok : TraceOk t (.afterLoop r))
    (hs : t.step (.afterLoop r) = some t') :
    ∃ d', d.step (.afterLoop r) = some d' ∧ Tracks t' d' ∧ t.program.Reaches t'.program := by
  replace hok : t.program.pendingLoop = false := hok
  obtain ⟨t₁, ht₁, rfl⟩ := Option.map_eq_some_iff.1 hs
  obtain ⟨hd, ha, p', hp', rfl⟩ := advance_eq ht₁
  obtain ⟨c', hc', hf', hr⟩ := hi.follows.step (by simp) (fun _ _ => hok) hp'
  simp only [Program.step, Program.loopEnd, hok, Bool.false_eq_true, if_false] at hp'
  have hfl := hi.flagged
  simp only [Trace.Flagged, ha, hok, Bool.false_eq_true, if_false] at hfl
  split at hp'
  · next a b bs hacts =>
    split at hp'
    · next hc =>
      cases hp'
      rw [hacts] at hfl
      obtain ⟨f, fs, -, hm, -⟩ := hi.follows.inv.head hacts
      have hl := hc.1
      obtain ⟨id, hid⟩ := Activation.isLoop_iff.1 hl
      obtain ⟨entry, pe', hpe, hfl', -, -⟩ := hfl.leave (hm.looping hl).2.1 (by simp [hid])
      replace hc' : d.tool.doLoopEnd r = some c' := hc'
      refine ⟨⟨c', pe'⟩, by simp [Driver.step, Driver.afterLoop, hc', hpe],
        ⟨hf', ⟨hok, _, _, rfl, ?_⟩,
          fun body h => by rw [show t.detached = some body from h] at hd; cases hd⟩, hr⟩
      refine hfl'.setHead rfl rfl rfl (.inr fun r' hr' => ?_)
      by_cases hrr : r' = r
      · subst hrr; simp
      · simpa [Function.update_of_ne hrr] using hr'
    · cases hp'
  · cases hp'

theorem step {h : DriverHook} (hi : Tracks t d) (hok : TraceOk t h) (hs : t.step h = some t') :
    ∃ d', d.step h = some d' ∧ Tracks t' d' ∧ t.program.Reaches t'.program := by
  cases h with
  | funcEntry => exact hi.funcEntry hs
  | funcExit => exact hi.funcExit hs
  | detach => exact hi.detach hs
  | task => exact hi.task hs
  | taskExit => exact hi.taskExit hs
  | detachContinue => exact hi.detachContinue hs
  | sync => exact hi.sync hs
  | beforeLoop => exact hi.beforeLoop hs
  | afterLoop => exact hi.afterLoop hok hs

end Tracks

/-! ## Runs -/

/-- Every hook of a run meets `TraceOk`. -/
def TraceRunOk (t : Trace) : List DriverHook → Prop
  | [] => True
  | h :: hs => TraceOk t h ∧ ∀ t' ∈ t.step h, TraceRunOk t' hs

instance decidableTraceOk (t : Trace) : (h : DriverHook) → Decidable (TraceOk t h)
  | .afterLoop _ => inferInstanceAs (Decidable (t.program.pendingLoop = false))
  | .funcEntry .. | .funcExit | .detach _ | .task .. | .taskExit .. | .detachContinue .. | .sync _ |
      .beforeLoop =>
    inferInstanceAs (Decidable True)

instance decidableTraceRunOk (t : Trace) : (hooks : List DriverHook) →
    Decidable (TraceRunOk t hooks)
  | [] => inferInstanceAs (Decidable True)
  | h :: hs =>
    have := fun t' => decidableTraceRunOk t' hs
    inferInstanceAs (Decidable (TraceOk t h ∧ ∀ t' ∈ t.step h, TraceRunOk t' hs))

namespace Tracks

variable {t t' : Trace} {d : Driver}

theorem init : Tracks Trace.init Driver.init where
  follows := ⟨.init, rfl, by simp [Trace.init, Program.init], by simp [Trace.init, Program.init]⟩
  flagged := .root (a := { kind := .root, regions := 0, cur := 0 }) false rfl rfl
  detached _ h := by cases h

theorem run {hooks : List DriverHook} (hi : Tracks t d) (hok : TraceRunOk t hooks)
    (hs : t.run hooks = some t') :
    ∃ d', d.run hooks = some d' ∧ Tracks t' d' ∧ t.program.Reaches t'.program := by
  induction hooks generalizing t d with
  | nil =>
    cases hs
    exact ⟨d, rfl, hi, .refl⟩
  | cons h hooks ih =>
    simp only [Trace.run, List.foldlM_cons, Option.bind_eq_bind, Option.bind_eq_some_iff] at hs
    obtain ⟨t₁, ht₁, hs⟩ := hs
    obtain ⟨d₁, hd₁, hi₁, hr₁⟩ := hi.step hok.1 ht₁
    obtain ⟨d', hd', hi', hr'⟩ := ih hi₁ (hok.2 t₁ ht₁) hs
    refine ⟨d', ?_, hi', hr₁.trans hr'⟩
    simp only [Driver.run, List.foldlM_cons, hd₁, Option.bind_eq_bind, Option.bind_some]
    exact hd'

/-- With the flag down, nothing that was begun may run in parallel. -/
theorem inSeries (hi : Tracks t d) (ha : t.awaiting = none)
    (hdown : d.parallelExecution.isExecutionParallel = false) :
    t.program.InSeries := by
  have hfl := hi.flagged
  simp only [Trace.Flagged, ha] at hfl
  have hlt := hi.follows.ordered.pendLt
  split at hfl
  · obtain ⟨top, entry, pe', hpe, he, hent, hfl⟩ := hfl
    rw [hpe] at hdown
    exact hfl.serial_of_down (by rw [he, hent hdown]) hlt
  · obtain ⟨top, htop⟩ := hfl.exists_head
    rw [ParallelExecution.isExecutionParallel, htop] at hdown
    exact hfl.serial_of_down (by rw [htop]; exact congrArg some hdown) hlt

theorem acts_ne_nil (hi : Tracks t d) : t.program.acts ≠ [] := by
  have hfl := hi.flagged
  have hne : ∀ {as : List Activation} {pe : ParallelExecution}, Flags as pe → as ≠ [] := fun h => by
    cases h <;> simp
  simp only [Trace.Flagged] at hfl
  split at hfl
  · obtain ⟨-, a, as, hacts, -⟩ := hfl
    simp [hacts]
  · split at hfl
    · obtain ⟨_, _, _, _, _, _, hfl⟩ := hfl
      exact hne hfl
    · exact hne hfl

theorem cur_lt (hi : Tracks t d) : t.program.cur < t.program.dag.size := by
  have := hi.follows.inv.program.newest
  omega

end Tracks

theorem Trace.run_append {t : Trace} {h₁ h₂ : List DriverHook} :
    t.run (h₁ ++ h₂) = (t.run h₁).bind (·.run h₂) := by
  simp [Trace.run, List.foldlM_append]

theorem TraceRunOk.append {t : Trace} {h₁ h₂ : List DriverHook} (h : TraceRunOk t (h₁ ++ h₂)) :
    TraceRunOk t h₁ ∧ ∀ t' ∈ t.run h₁, TraceRunOk t' h₂ := by
  induction h₁ generalizing t with
  | nil => exact ⟨trivial, fun t' ht => by cases ht; exact h⟩
  | cons a h₁ ih =>
    refine ⟨⟨h.1, fun t' ht => (ih (h.2 t' ht)).1⟩, fun t' ht => ?_⟩
    obtain ⟨t₁, ht₁, ht⟩ := Option.bind_eq_some_iff.1 ht
    exact (ih (h.2 t₁ ht₁)).2 t' ht

/-- Two points of a run, and how the program gets from the one to the other. -/
theorem Tracks.points {hooks pre₁ pre₂ : List DriverHook} {t₁ t₂ : Trace}
    (hok : TraceRunOk Trace.init hooks)
    (h₁₂ : pre₁ <+: pre₂) (h₂ : pre₂ <+: hooks) (ht₁ : Trace.init.run pre₁ = some t₁)
    (ht₂ : Trace.init.run pre₂ = some t₂) :
    ∃ d₁ d₂, Driver.init.run pre₁ = some d₁ ∧ Tracks t₁ d₁ ∧ Tracks t₂ d₂ ∧
    t₁.program.Reaches t₂.program := by
  obtain ⟨mid, rfl⟩ := h₁₂
  obtain ⟨post, rfl⟩ := h₂
  have hok := hok.append.1.append
  obtain ⟨d₁, hd₁, hi₁, -⟩ := Tracks.init.run hok.1 ht₁
  rw [Trace.run_append, ht₁] at ht₂
  obtain ⟨d₂, -, hi₂, hr⟩ := hi₁.run (hok.2 t₁ ht₁) ht₂
  exact ⟨d₁, d₂, hd₁, hi₁, hi₂, hr⟩

/-- Wherever the flag is down, the strand is in series with every other that
the whole program runs. Between a loop's end and the sync that comes at once
no strand runs. -/
def FilterSound (hooks : List DriverHook) : Prop :=
  ∀ t, Trace.init.run hooks = some t →
    ∀ pre₁ t₁, pre₁ <+: hooks → Trace.init.run pre₁ = some t₁ → t₁.awaiting = none →
      ∃ d, Driver.init.run pre₁ = some d ∧ (d.parallelExecution.isExecutionParallel = false →
        ∀ pre₂ t₂, pre₂ <+: hooks → Trace.init.run pre₂ = some t₂ → t₂.program.running = true →
          ¬ t.program.dag.Parallel t₁.program.cur t₂.program.cur)

/-- **The filter.** In every run in which no loop ends before its first
iteration, skipping what a strand does while the flag is down hides no race. -/
theorem filterSound_of_loops_iterate {hooks : List DriverHook} (hok : TraceRunOk Trace.init hooks) :
    FilterSound hooks := by
  intro t ht pre₁ t₁ hpre₁ ht₁ ha
  obtain ⟨d, _, hd, hi₁, -, hr₁⟩ := Tracks.points hok hpre₁ (List.prefix_refl hooks) ht₁ ht
  refine ⟨d, hd, fun hdown pre₂ t₂ hpre₂ ht₂ hrun hpar => ?_⟩
  have hs := hi₁.inSeries ha hdown
  rcases List.prefix_or_prefix_of_prefix hpre₁ hpre₂ with h | h
  · -- What runs later comes after.
    obtain ⟨_, _, -, -, hi₂, hr⟩ := Tracks.points hok h hpre₂ ht₁ ht₂
    obtain ⟨_, _, -, -, -, hr₂⟩ := Tracks.points hok hpre₂ (List.prefix_refl hooks) ht₂ ht
    exact hpar.1 (hr.path_of_after hr₂ hs hi₁.acts_ne_nil hi₂.cur_lt)
  · obtain ⟨_, _, -, hi₂, -, hr⟩ := Tracks.points hok h hpre₁ ht₂ ht₁
    exact hpar.2 (hr.path_of_covered hr₁ hi₁.follows.ordered hs hrun hi₂.acts_ne_nil hi₁.cur_lt)

theorem filterSound_of_loops_iterate_loop :
    FilterSound [.funcEntry true 1, .beforeLoop, .detach true, .task true 0,
    .taskExit true 0, .detachContinue true false 0, .afterLoop 0, .sync 0, .funcExit] :=
  filterSound_of_loops_iterate (by decide)

/-- A function spawns a task to each of two regions, ends a loop that had no
iteration, and syncs the second: the loop's end popped its frame, and the sync
of its caller's makes the flag go down. -/
def emptyLoopTrace : List DriverHook :=
  [.funcEntry true 2, .funcEntry true 2, .detach false, .task false 0, .taskExit false 0,
    .detachContinue false false 0,
    .detach false, .task false 0, .taskExit false 1, .detachContinue false false 1, .beforeLoop,
    .afterLoop 1, .sync 1]

theorem not_filterSound_emptyLoop : ¬ ∀ hooks, FilterSound hooks := by
  intro h
  obtain ⟨d, hd, hsound⟩ := h emptyLoopTrace _ rfl emptyLoopTrace _ (List.prefix_refl _) rfl rfl
  cases hd
  refine hsound rfl (emptyLoopTrace.take 4) _ (List.take_prefix _ _) rfl rfl
    ⟨fun hp => ?_, fun hp => ?_⟩
  · exact absurd hp.le (by decide)
  · have := hp.of_closed (S := fun v => v = 3) (by decide) (by decide)
    exact absurd this (by decide)

end Cilksan
