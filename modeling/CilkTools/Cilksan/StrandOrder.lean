/-
How the strands of a program follow each other. What ran before a point is
followed by the point's strand unless it is left in an activation of the
stack, and what runs after it follows it as long as no task and no iteration
is left: at a point of the stack where neither is, the strand is in series
with every other.
-/
import CilkTools.Cilksan.BagInvariant

namespace Cilksan

/-- The last strands of what the activation has run, but for the one a loop is
on between two iterations, which runs nothing. -/
def Activation.Left (a : Activation) (x : Nat) : Prop :=
  a.active = true ∧ x = a.cur ∨ (∃ r, x ∈ a.pend r) ∨ x ∈ a.done

/-- Its parent goes on when it returns, and not before. -/
def Activation.Serial (a : Activation) : Prop := a.kind = .root ∨ a.kind = .called

theorem Activation.Left.ends {a : Activation} {x : Nat} (h : a.Left x) : a.Ends x :=
  h.imp_left And.right

theorem Activation.not_serial_of_loop {a : Activation} (hl : a.isLoop = true) : ¬ a.Serial := by
  obtain ⟨id, hid⟩ := Activation.isLoop_iff.1 hl
  simp [Activation.Serial, hid]

namespace Program

/-- What the stack's invariant says of the activations alone, and that each
follows the one below. -/
structure Ordered (p : Program) : Prop where
  wf : p.WF
  pendLt : ∀ a ∈ p.acts, ∀ r, a.regions ≤ r → a.pend r = []
  idle : ∀ a ∈ p.acts, a.active = false → ∀ r, a.pend r = []
  done : ∀ a ∈ p.acts, a.isLoop = false → a.done = []
  chain : p.acts.Pairwise fun a b => p.dag.Path b.cur a.cur

/-- Every strand left in `p` is left in `p'`, or comes before one of the
strands `ps` that the new strand of an activation follows. -/
def Leads (p p' : Program) (ps : List Nat) : Prop :=
  ∀ a ∈ p.acts, ∀ x, a.Left x → (∃ b ∈ p'.acts, b.Left x) ∨
    (∃ y ∈ ps, p.dag.Path x y) ∧ ∃ b ∈ p'.acts, b.Left p.dag.size

/-- How the stack of activations changes, and which strand the new one follows. -/
inductive Moves (p p' : Program) (ps : List Nat) : Prop
  | push {a a' as} (hp : p.acts = a :: as) (ha : p'.acts = a' :: a :: as) (hc : a'.cur = p.dag.size)
    (hq : a.cur ∈ ps)
  | head {a a' as q} (hp : p.acts = a :: as) (ha : p'.acts = a' :: as) (hc : a'.cur = p.dag.size)
    (hk : a'.kind = a.kind) (hq : q ∈ ps) (hf : q = a.cur ∨ ¬ a.Serial ∧ ∃ b ∈ as.head?, q = b.cur)
  | pop {a b b' bs q} (hp : p.acts = a :: b :: bs) (ha : p'.acts = b' :: bs)
    (hc : b'.cur = p.dag.size)
    (hk : b'.kind = b.kind) (hq : q ∈ ps) (hf : q = a.cur ∨ ¬ a.Serial ∧ q = b.cur)

/-- A step goes on with the same strand, or with a new one. -/
def Steps (p p' : Program) : Prop :=
  p'.dag = p.dag ∧ p'.acts = p.acts ∨ ∃ ps, p'.dag = p.dag.add ps ∧ Moves p p' ps ∧ Leads p p' ps

variable {p p' : Program}

theorem Ordered.mem_unsynced (ho : p.Ordered) {a : Activation} (ha : a ∈ p.acts) {r x : Nat}
    (hx : x ∈ a.pend r) : x ∈ a.unsynced := by
  simp only [Activation.unsynced, List.mem_flatMap, List.mem_range]
  rcases Nat.lt_or_ge r a.regions with hr | hr
  · exact ⟨r, hr, hx⟩
  · rw [ho.pendLt a ha r hr] at hx; cases hx

theorem Leads.head {ps : List Nat} {a a' : Activation} {as : List Activation}
    (hp : p.acts = a :: as) (ha : p'.acts = a' :: as)
    (h : ∀ x, a.Left x → a'.Left x ∨ (∃ y ∈ ps, p.dag.Path x y) ∧ a'.Left p.dag.size) :
    Leads p p' ps := by
  intro b hb x hx
  rw [hp, List.mem_cons] at hb
  rw [ha]
  rcases hb with rfl | hb
  · exact (h x hx).imp (fun hx => ⟨a', by simp, hx⟩) fun hx => ⟨hx.1, a', by simp, hx.2⟩
  · exact .inl ⟨b, by simp [hb], hx⟩

theorem Leads.pop {ps : List Nat} {a b b' : Activation} {bs : List Activation}
    (hp : p.acts = a :: b :: bs) (ha : p'.acts = b' :: bs)
    (h : ∀ x, a.Left x ∨ b.Left x → b'.Left x ∨ (∃ y ∈ ps, p.dag.Path x y) ∧ b'.Left p.dag.size) :
    Leads p p' ps := by
  intro d hd x hx
  rw [hp, List.mem_cons, List.mem_cons] at hd
  rw [ha]
  rcases hd with rfl | rfl | hd
  · exact (h x (.inl hx)).imp (fun hx => ⟨b', by simp, hx⟩) fun hx => ⟨hx.1, b', by simp, hx.2⟩
  · exact (h x (.inr hx)).imp (fun hx => ⟨b', by simp, hx⟩) fun hx => ⟨hx.1, b', by simp, hx.2⟩
  · exact .inl ⟨d, by simp [hd], hx⟩

/-- The head activation goes on, its tasks and iterations left as they are. -/
theorem Steps.goOn {a a' : Activation} {as : List Activation} (hp : p.acts = a :: as)
    (hd : p'.dag = p.dag.add [a.cur]) (ha : p'.acts = a' :: as) (hc : a'.cur = p.dag.size)
    (hk : a'.kind = a.kind)
    (hact : a'.active = true) (hpe : a'.pend = a.pend) (hdn : a'.done = a.done) : Steps p p' := by
  refine .inr ⟨[a.cur], hd, .head hp ha hc hk (by simp) (.inl rfl), .head hp ha fun x hx => ?_⟩
  rcases hx with ⟨-, rfl⟩ | ⟨r, hx⟩ | hx
  · exact .inr ⟨⟨a.cur, by simp, .refl _⟩, .inl ⟨hact, hc.symm⟩⟩
  · exact .inl (.inr (.inl ⟨r, by rw [hpe]; exact hx⟩))
  · exact .inl (.inr (.inr (by rw [hdn]; exact hx)))

theorem Steps.push {a a' : Activation} {as : List Activation} (hp : p.acts = a :: as)
    (hd : p'.dag = p.dag.add [a.cur]) (ha : p'.acts = a' :: a :: as) (hc : a'.cur = p.dag.size) :
    Steps p p' := by
  refine .inr ⟨[a.cur], hd, .push hp ha hc (by simp), fun b hb x hx => .inl ⟨b, ?_, hx⟩⟩
  rw [hp] at hb
  rw [ha]
  exact List.mem_cons_of_mem _ hb

/-- Strands of the activation popped, and those of its parent, to a region of
the parent. -/
theorem Steps.leave {a b : Activation} {bs : List Activation} {r : Nat} {E : List Nat}
    (hp : p.acts = a :: b :: bs)
    (hb : b.active = true) (hs : ¬ a.Serial) (hE : ∀ x, a.Left x → x ∈ E) :
    Steps p (p.advance [b.cur]
      ({ b with cur := p.dag.size, pend := Function.update b.pend r (b.pend r ++ E) } :: bs)) := by
  refine .inr ⟨[b.cur], rfl, .pop hp rfl rfl rfl (by simp) (.inr ⟨hs, rfl⟩),
    .pop hp rfl fun x hx => ?_⟩
  rcases hx with hx | ⟨-, rfl⟩ | ⟨r', hx⟩ | hx
  · exact .inl (.inr (.inl ⟨r, by simp [hE x hx]⟩))
  · exact .inr ⟨⟨b.cur, by simp, .refl _⟩, .inl ⟨hb, rfl⟩⟩
  · refine .inl (.inr (.inl ⟨r', ?_⟩))
    by_cases hr : r' = r
    · subst hr; simp [hx]
    · simpa [Function.update_of_ne hr] using hx
  · exact .inl (.inr (.inr hx))

theorem Ordered.step {h : Hook} (ho : p.Ordered) (hs : p.step h = some p') : Steps p p' := by
  have hactive : ∀ {a as}, p.acts = a :: as → p.running = true → a.active = true := fun hp hr =>
    ((running_iff hp).1 hr).2
  have hactive' : ∀ {a b bs}, p.acts = a :: b :: bs → b.active = true := fun hp =>
    ho.wf.active _ (by simp [hp])
  cases h with
  | recordCall | recordCallReturn =>
    cases hs
    exact .inl ⟨rfl, rfl⟩
  | check i =>
    simp only [Program.step, Option.ite_none_right_eq_some, Option.some.injEq] at hs
    obtain ⟨-, rfl⟩ := hs
    exact .inl ⟨rfl, rfl⟩
  | detachContinue r | access acc | loopBegin =>
    simp only [Program.step, Option.ite_none_right_eq_some, detachContinue, access, loopBegin] at hs
    obtain ⟨-, hs⟩ := hs
    repeat' split at hs
    all_goals cases hs
    exact .inl ⟨rfl, rfl⟩
  | funcEntry m n =>
    simp only [Program.step, Option.ite_none_right_eq_some, funcEntry] at hs
    obtain ⟨hr, hs⟩ := hs
    split at hs
    · next a as hp =>
      have ha := hactive hp hr
      split at hs
      all_goals cases hs
      · exact .goOn hp rfl rfl rfl rfl ha rfl rfl
      · exact .push hp rfl rfl rfl
    · cases hs
  | funcExit =>
    simp only [Program.step, Option.ite_none_right_eq_some, funcExit] at hs
    obtain ⟨hr, hs⟩ := hs
    split at hs
    · next a as hp =>
      have ha := hactive hp hr
      split at hs
      · cases hs
        exact .goOn hp rfl rfl rfl rfl ha rfl rfl
      · split at hs
        · next b bs hk =>
          split at hs
          · next hu =>
            cases hs
            have hb := hactive' hp
            have hchain := ho.chain
            rw [hp, List.pairwise_cons] at hchain
            -- A called function has left nothing.
            refine .inr ⟨[a.cur], rfl, .pop hp rfl rfl rfl (by simp) (.inl rfl),
              .pop hp rfl fun x hx => ?_⟩
            rcases hx with (⟨-, rfl⟩ | ⟨r, hx⟩ | hx) | ⟨-, rfl⟩ | hx
            · exact .inr ⟨⟨a.cur, by simp, .refl _⟩, .inl ⟨hb, rfl⟩⟩
            · have := ho.mem_unsynced (by simp [hp]) hx
              rw [hu] at this
              cases this
            · rw [ho.done a (by simp [hp]) (by simp [Activation.isLoop, hk])] at hx
              cases hx
            · exact .inr ⟨⟨a.cur, by simp, hchain.1 b (by simp)⟩, .inl ⟨hb, rfl⟩⟩
            · exact .inl (.inr hx)
          · cases hs
        · cases hs
    · cases hs
  | task n =>
    simp only [Program.step, Option.ite_none_right_eq_some, task] at hs
    obtain ⟨-, hs⟩ := hs
    split at hs
    · next a as hp =>
      split at hs
      all_goals cases hs
      exact .push hp rfl rfl rfl
    · cases hs
  | taskExit r =>
    simp only [Program.step, Option.ite_none_right_eq_some, taskExit] at hs
    obtain ⟨-, hs⟩ := hs
    split at hs
    · next a b bs hp =>
      split at hs
      · next hc =>
        cases hs
        refine .leave hp (hactive' hp) (by simp [Activation.Serial, hc.1]) fun x hx => ?_
        rcases hx with ⟨-, rfl⟩ | ⟨r', hx⟩ | hx
        · exact List.mem_cons_self
        · exact List.mem_cons_of_mem _ (ho.mem_unsynced (by simp [hp]) hx)
        · rw [ho.done a (by simp [hp]) (by simp [Activation.isLoop, hc.1])] at hx
          cases hx
      · cases hs
    · cases hs
  | sync r =>
    simp only [Program.step, Option.ite_none_right_eq_some, sync] at hs
    obtain ⟨hr, hs⟩ := hs
    split at hs
    · next a as hp =>
      have ha := hactive hp hr
      split at hs
      all_goals cases hs
      refine .inr ⟨a.cur :: a.pend r, rfl, .head hp rfl rfl rfl (by simp) (.inl rfl),
        .head hp rfl fun x hx => ?_⟩
      rcases hx with ⟨-, rfl⟩ | ⟨r', hx⟩ | hx
      · exact .inr ⟨⟨a.cur, by simp, .refl _⟩, .inl ⟨ha, rfl⟩⟩
      · by_cases hrr : r' = r
        · subst hrr
          exact .inr ⟨⟨x, by simp [hx], .refl _⟩, .inl ⟨ha, rfl⟩⟩
        · exact .inl (.inr (.inl ⟨r', by simpa [Function.update_of_ne hrr] using hx⟩))
      · exact .inl (.inr (.inr hx))
    · cases hs
  | loopIterationBegin n =>
    simp only [Program.step, loopIterationBegin] at hs
    split at hs
    · split at hs
      · next a as hp =>
        cases hs
        exact .push hp rfl rfl rfl
      · cases hs
    · split at hs
      · next a b bs hp =>
        split at hs
        · next hc =>
          cases hs
          refine .inr ⟨[b.cur], rfl, .head hp rfl rfl rfl (by simp)
            (.inr ⟨Activation.not_serial_of_loop hc.1, b, rfl, rfl⟩), .head hp rfl fun x hx => ?_⟩
          rcases hx with ⟨ha, -⟩ | ⟨r, hx⟩ | hx
          · rw [hc.2] at ha
            cases ha
          · rw [ho.idle a (by simp [hp]) hc.2] at hx
            cases hx
          · exact .inl (.inr (.inr hx))
        · cases hs
      · cases hs
  | loopIterationEnd =>
    simp only [Program.step, Option.ite_none_right_eq_some, loopIterationEnd] at hs
    obtain ⟨-, hs⟩ := hs
    split at hs
    · next a b bs hp =>
      split at hs
      · next hl =>
        cases hs
        refine .inr ⟨[b.cur], rfl,
          .head hp rfl rfl rfl (by simp) (.inr ⟨Activation.not_serial_of_loop hl, b, rfl, rfl⟩),
          .head hp rfl fun x hx => .inl (.inr (.inr ?_))⟩
        rcases hx with ⟨-, rfl⟩ | ⟨r, hx⟩ | hx
        · simp
        · simp [ho.mem_unsynced (by simp [hp]) hx]
        · simp [hx]
      · cases hs
    · cases hs
  | loopEnd r =>
    simp only [Program.step, loopEnd] at hs
    split at hs
    · cases hs
      exact .inl ⟨rfl, rfl⟩
    · split at hs
      · next a b bs hp =>
        split at hs
        · next hc =>
          cases hs
          refine .leave hp (hactive' hp) (Activation.not_serial_of_loop hc.1) fun x hx => ?_
          rcases hx with ⟨ha, -⟩ | ⟨r', hx⟩ | hx
          · rw [hc.2.1] at ha
            cases ha
          · rw [ho.idle a (by simp [hp]) hc.2.1] at hx
            cases hx
          · exact hx
        · cases hs
      · cases hs

/-! ## What a step keeps -/

theorem Ordered.lt_size (ho : p.Ordered) {a : Activation} (ha : a ∈ p.acts) {x : Nat}
    (hx : a.Ends x) : x < p.dag.size := ho.wf.ends a ha x hx

/-- The new strand comes after `y` if what it follows does. -/
theorem path_new {ps : List Nat} {q y : Nat} (hd : p'.dag = p.dag.add ps) (hq : q ∈ ps)
    (hlt : q < p.dag.size) (hy : p.dag.Path y q) : p'.dag.Path y p.dag.size := by
  rw [hd]
  exact ((GrowingDag.path_add_old hlt).2 hy).trans (GrowingDag.path_add_pred hq hlt)

theorem path_old {ps : List Nat} {x y : Nat} (hd : p'.dag = p.dag.add ps) (hlt : y < p.dag.size)
    (h : p.dag.Path x y) : p'.dag.Path x y := by
  rw [hd]
  exact (GrowingDag.path_add_old hlt).2 h

theorem Ordered.chain_of_steps (ho : p.Ordered) (hst : Steps p p') :
    p'.acts.Pairwise fun a b => p'.dag.Path b.cur a.cur := by
  rcases hst with ⟨hd, ha⟩ | ⟨ps, hd, hm, -⟩
  · rw [hd, ha]
    exact ho.chain
  · have hold : ∀ {as : List Activation}, (∀ a ∈ as, a ∈ p.acts) →
        (as.Pairwise fun a b => p.dag.Path b.cur a.cur) →
        as.Pairwise fun a b => p'.dag.Path b.cur a.cur :=
      fun hmem hp => hp.imp_of_mem fun ha _ h => path_old hd (ho.lt_size (hmem _ ha) (.inl rfl)) h
    have hchain := ho.chain
    cases hm with
    | @push a a' as hp ha hc hq =>
      rw [hp] at hchain
      rw [ha]
      refine List.pairwise_cons.2 ⟨fun b hb => ?_, hold (by simp [hp]) hchain⟩
      rw [hc]
      refine path_new hd hq (ho.lt_size (by simp [hp]) (.inl rfl)) ?_
      rw [List.mem_cons] at hb
      rcases hb with rfl | hb
      · exact .refl _
      · exact (List.pairwise_cons.1 hchain).1 b hb
    | @head a a' as q hp ha hc hk hq hf =>
      rw [hp] at hchain
      obtain ⟨h₁, h₂⟩ := List.pairwise_cons.1 hchain
      rw [ha]
      refine List.pairwise_cons.2 ⟨fun b hb => ?_, hold (fun b hb => by simp [hp, hb]) h₂⟩
      rw [hc]
      rcases hf with rfl | ⟨-, d, hd', rfl⟩
      · exact path_new hd hq (ho.lt_size (by simp [hp]) (.inl rfl)) (h₁ b hb)
      · obtain ⟨ds, rfl⟩ := List.head?_eq_some_iff.1 hd'
        refine path_new hd hq (ho.lt_size (a := d) (by simp [hp]) (.inl rfl)) ?_
        rw [List.mem_cons] at hb
        rcases hb with rfl | hb
        · exact .refl _
        · exact (List.pairwise_cons.1 h₂).1 b hb
    | @pop a b b' bs q hp ha hc hk hq hf =>
      rw [hp] at hchain
      obtain ⟨h₁, h₂⟩ := List.pairwise_cons.1 hchain
      obtain ⟨h₂, h₃⟩ := List.pairwise_cons.1 h₂
      rw [ha]
      refine List.pairwise_cons.2 ⟨fun d hd' => ?_, hold (fun d hd' => by simp [hp, hd']) h₃⟩
      rw [hc]
      rcases hf with rfl | ⟨-, rfl⟩
      · exact path_new hd hq (ho.lt_size (by simp [hp]) (.inl rfl)) (h₁ d (by simp [hd']))
      · exact path_new hd hq (ho.lt_size (a := b) (by simp [hp]) (.inl rfl)) (h₂ d hd')

/-- Strand `s` comes before one that is left in an activation. -/
def Covered (p : Program) (s : Nat) : Prop := ∃ a ∈ p.acts, ∃ x, a.Left x ∧ p.dag.Path s x

theorem Covered.step {s : Nat} (hc : p.Covered s) (ho : p.Ordered) (hst : Steps p p') :
    p'.Covered s := by
  obtain ⟨a, ha, x, hx, hpath⟩ := hc
  rcases hst with ⟨hd, ha'⟩ | ⟨ps, hd, -, hl⟩
  · exact ⟨a, by rw [ha']; exact ha, x, hx, by rw [hd]; exact hpath⟩
  · rcases hl a ha x hx with ⟨b, hb, hbx⟩ | ⟨⟨y, hy, hxy⟩, b, hb, hbx⟩
    · exact ⟨b, hb, x, hbx, path_old hd (ho.lt_size ha hx.ends) hpath⟩
    · have hlt := hxy.lt_size (ho.lt_size ha hx.ends)
      exact ⟨b, hb, _, hbx, path_new hd hy hlt (hpath.trans hxy)⟩

/-- Every strand the program goes on with from here on comes after strand `x`:
what is above `ls` in the stack does, and `ls` waits for it. -/
def After (p : Program) (x : Nat) : Prop :=
  ∃ us a ls, p.acts = us ++ a :: ls ∧ (∀ b ∈ us, p.dag.Path x b.cur) ∧
  p.dag.Path x a.cur ∧ a.Serial ∧
    ∀ b ∈ ls, b.Serial

theorem Serial_congr {a b : Activation} (hk : b.kind = a.kind) : b.Serial ↔ a.Serial := by
  simp [Activation.Serial, hk]

theorem After.step {x : Nat} (hx : p.After x) (ho : p.Ordered) (hst : Steps p p') : p'.After x := by
  obtain ⟨us, e, ls, hacts, hus, he, hser, hls⟩ := hx
  rcases hst with ⟨hd, ha⟩ | ⟨ps, hd, hm, -⟩
  · exact ⟨us, e, ls, ha.trans hacts, by rw [hd]; exact hus, by rw [hd]; exact he, hser, hls⟩
  · have hold : ∀ {b : Activation}, b ∈ p.acts → p.dag.Path x b.cur → p'.dag.Path x b.cur :=
      fun hb h =>
      path_old hd (ho.lt_size hb (.inl rfl)) h
    have hold' : ∀ {vs : List Activation}, (∀ b ∈ vs, b ∈ us) → ∀ b ∈ vs, p'.dag.Path x b.cur :=
      fun hv b hb =>
      hold (by simp [hacts, hv b hb]) (hus b (hv b hb))
    have he' : p'.dag.Path x e.cur := hold (by simp [hacts]) he
    have hnew : ∀ {b : Activation}, b ∈ p.acts → b.cur ∈ ps → p.dag.Path x b.cur →
      p'.dag.Path x p.dag.size := fun hb hq h => path_new hd hq (ho.lt_size hb (.inl rfl)) h
    cases hm with
    | @push a a' as hp ha hc hq =>
      rw [hp] at hacts
      refine ⟨a' :: us, e, ls, by rw [ha, hacts]; rfl,
        List.forall_mem_cons.2 ⟨?_, hold' fun _ h => h⟩, he', hser, hls⟩
      rw [hc]
      cases us with
      | nil =>
        cases hacts
        exact hnew (by simp [hp]) hq he
      | cons u us =>
        cases hacts
        exact hnew (by simp [hp]) hq (hus _ (by simp))
    | @head a a' as q hp ha hc hk hq hf =>
      rw [hp] at hacts
      cases us with
      | nil =>
        cases hacts
        rcases hf with rfl | ⟨hn, -⟩
        · exact ⟨[], a', ls, ha, by simp, by rw [hc]; exact hnew (by simp [hp]) hq he,
            (Serial_congr hk).2 hser, hls⟩
        · exact absurd hser hn
      | cons u us =>
        cases hacts
        refine ⟨a' :: us, e, ls, by rw [ha]; rfl,
          List.forall_mem_cons.2 ⟨?_, hold' fun b h => by simp [h]⟩, he', hser, hls⟩
        rw [hc]
        rcases hf with rfl | ⟨-, b, hb, rfl⟩
        · exact hnew (by simp [hp]) hq (hus _ (by simp))
        · cases us with
          | nil =>
            cases hb
            exact hnew (by simp [hp]) hq he
          | cons v us =>
            cases hb
            exact hnew (by simp [hp]) hq (hus _ (by simp))
    | @pop a b b' bs q hp ha hc hk hq hf =>
      rw [hp] at hacts
      cases us with
      | nil =>
        cases hacts
        rw [List.forall_mem_cons] at hls
        rcases hf with rfl | ⟨hn, -⟩
        · exact ⟨[], b', _, ha, by simp, by rw [hc]; exact hnew (by simp [hp]) hq he,
            (Serial_congr hk).2 hls.1, hls.2⟩
        · exact absurd hser hn
      | cons u us =>
        cases us with
        | nil =>
          cases hacts
          refine ⟨[], b', _, ha, by simp, ?_, (Serial_congr hk).2 hser, hls⟩
          rw [hc]
          rcases hf with rfl | ⟨-, rfl⟩
          · exact hnew (by simp [hp]) hq (hus _ (by simp))
          · exact hnew (by simp [hp]) hq he
        | cons v us =>
          cases hacts
          refine ⟨b' :: us, e, ls, by rw [ha]; rfl,
            List.forall_mem_cons.2 ⟨?_, hold' fun b h => by simp [h]⟩, he', hser, hls⟩
          rw [hc]
          rcases hf with rfl | ⟨-, rfl⟩
          · exact hnew (by simp [hp]) hq (hus _ (by simp))
          · exact hnew (by simp [hp]) hq (hus _ (by simp))

/-! ## Points in series -/

/-- Nothing that the activations of the stack began may run in parallel. -/
def InSeries (p : Program) : Prop := ∀ a ∈ p.acts, a.Serial ∧ ∀ r, a.pend r = []

theorem Ordered.path_cur (ho : p.Ordered) {a : Activation} (ha : a ∈ p.acts) :
    p.dag.Path a.cur p.cur := by
  have hchain := ho.chain
  generalize hp : p.acts = as at ha hchain
  cases as with
  | nil => cases ha
  | cons b bs =>
    rw [show p.cur = b.cur by simp [cur, hp]]
    rw [List.mem_cons] at ha
    rcases ha with rfl | ha
    · exact .refl _
    · exact (List.pairwise_cons.1 hchain).1 a ha

theorem Covered.path_of_inSeries {s : Nat} (hc : p.Covered s) (ho : p.Ordered) (hs : p.InSeries) :
    p.dag.Path s p.cur := by
  obtain ⟨a, ha, x, hx, hpath⟩ := hc
  obtain ⟨hser, hpe⟩ := hs a ha
  rcases hx with ⟨-, rfl⟩ | ⟨r, hx⟩ | hx
  · exact hpath.trans (ho.path_cur ha)
  · rw [hpe] at hx
    cases hx
  · rw [ho.done a ha] at hx
    · cases hx
    · cases hl : a.isLoop with
      | false => rfl
      | true => exact absurd hser (Activation.not_serial_of_loop hl)

theorem InSeries.after (hs : p.InSeries) (hne : p.acts ≠ []) : p.After p.cur := by
  obtain ⟨a, as, hp⟩ := List.exists_cons_of_ne_nil hne
  refine ⟨[], a, as, hp, by simp, ?_, (hs a (by simp [hp])).1,
    fun b hb => (hs b (by simp [hp, hb])).1⟩
  rw [show p.cur = a.cur by simp [cur, hp]]
  exact .refl _

theorem After.path {x : Nat} (hx : p.After x) : p.dag.Path x p.cur := by
  obtain ⟨us, e, ls, hacts, hus, he, -, -⟩ := hx
  cases us with
  | nil => simpa [cur, hacts] using he
  | cons u us => simpa [cur, hacts] using hus u (by simp)

theorem covered_cur (hr : p.running = true) (hne : p.acts ≠ []) : p.Covered p.cur := by
  obtain ⟨a, as, hp⟩ := List.exists_cons_of_ne_nil hne
  rw [show p.cur = a.cur by simp [cur, hp]]
  exact ⟨a, by simp [hp], a.cur, .inl ⟨((running_iff hp).1 hr).2, rfl⟩, .refl _⟩

/-! ## Runs -/

/-- Steps lead from `p` to `p'`. -/
def Reaches : Program → Program → Prop := Relation.ReflTransGen fun p p' => p.Ordered ∧ Steps p p'

theorem Reaches.covered (h : Reaches p p') {s : Nat} (hc : p.Covered s) : p'.Covered s := by
  induction h with
  | refl => exact hc
  | tail _ hst ih => exact ih.step hst.1 hst.2

theorem Reaches.after (h : Reaches p p') {x : Nat} (hx : p.After x) : p'.After x := by
  induction h with
  | refl => exact hx
  | tail _ hst ih => exact ih.step hst.1 hst.2

theorem Reaches.path (h : Reaches p p') {x y : Nat} (hy : y < p.dag.size) (hp : p.dag.Path x y) :
    p'.dag.Path x y := by
  suffices y < p'.dag.size ∧ p'.dag.Path x y from this.2
  induction h with
  | refl => exact ⟨hy, hp⟩
  | tail _ hst ih =>
    rcases hst.2 with ⟨hd, -⟩ | ⟨ps, hd, -⟩
    · rw [hd]
      exact ih
    · refine ⟨?_, path_old hd ih.1 ih.2⟩
      rw [hd, GrowingDag.add_size]
      omega

/-- **Points in series.** What ran before such a point comes before its strand. -/
theorem Reaches.path_of_covered {p₀ : Program} (h₀ : Reaches p₀ p) (h : Reaches p p')
    (ho : p.Ordered)
    (hs : p.InSeries) (hr : p₀.running = true) (hne : p₀.acts ≠ []) (hlt : p.cur < p.dag.size) :
    p'.dag.Path p₀.cur p.cur :=
  h.path hlt ((h₀.covered (covered_cur hr hne)).path_of_inSeries ho hs)

/-- And what runs after it comes after its strand. -/
theorem Reaches.path_of_after {p₁ : Program} (h₁ : Reaches p p₁) (h : Reaches p₁ p')
    (hs : p.InSeries) (hne : p.acts ≠ []) (hlt : p₁.cur < p₁.dag.size) : p'.dag.Path p.cur p₁.cur :=
  h.path hlt (h₁.after (hs.after hne)).path

/-- Only loops keep what ran in them. -/
theorem done_step {h : Hook} (hd : ∀ a ∈ p.acts, a.isLoop = false → a.done = [])
    (hs : p.step h = some p') : ∀ a ∈ p'.acts, a.isLoop = false → a.done = [] := by
  cases h with
  | recordCall | recordCallReturn =>
    cases hs
    exact hd
  | check i | detachContinue r | access acc | loopBegin =>
    simp only [Program.step, detachContinue, access, loopBegin] at hs
    repeat' split at hs
    all_goals cases hs
    all_goals exact hd
  | funcEntry m n =>
    simp only [Program.step, funcEntry] at hs
    repeat' split at hs
    all_goals cases hs
    all_goals
      next a as hp _ =>
      rw [hp] at hd
      first
        | exact List.forall_mem_cons.2 (List.forall_mem_cons.1 hd)
        | exact List.forall_mem_cons.2 ⟨fun _ => rfl, hd⟩
  | funcExit =>
    simp only [Program.step, funcExit] at hs
    repeat' split at hs
    all_goals cases hs
    · next a as hp _ =>
      rw [hp, List.forall_mem_cons] at hd
      exact List.forall_mem_cons.2 hd
    · next a b bs _ hp _ =>
      rw [hp, List.forall_mem_cons, List.forall_mem_cons] at hd
      exact List.forall_mem_cons.2 hd.2
  | task n =>
    simp only [Program.step, task] at hs
    repeat' split at hs
    all_goals cases hs
    next a as hp _ =>
      rw [hp] at hd
      exact List.forall_mem_cons.2 ⟨fun _ => rfl, hd⟩
  | taskExit r =>
    simp only [Program.step, taskExit] at hs
    repeat' split at hs
    all_goals cases hs
    next a b bs hp _ =>
      rw [hp, List.forall_mem_cons, List.forall_mem_cons] at hd
      exact List.forall_mem_cons.2 hd.2
  | sync r =>
    simp only [Program.step, sync] at hs
    repeat' split at hs
    all_goals cases hs
    next a as hp _ =>
      rw [hp, List.forall_mem_cons] at hd
      exact List.forall_mem_cons.2 hd
  | loopIterationBegin n =>
    simp only [Program.step, loopIterationBegin] at hs
    split at hs
    · split at hs
      · next a as hp =>
        cases hs
        rw [hp] at hd
        exact List.forall_mem_cons.2 ⟨fun _ => rfl, hd⟩
      · cases hs
    · repeat' split at hs
      all_goals cases hs
      next a b bs hp _ =>
        rw [hp] at hd
        exact List.forall_mem_cons.2 (List.forall_mem_cons.1 hd)
  | loopIterationEnd =>
    simp only [Program.step, loopIterationEnd] at hs
    repeat' split at hs
    all_goals cases hs
    next a b bs hp hl =>
      rw [hp, List.forall_mem_cons] at hd
      exact List.forall_mem_cons.2
        ⟨fun h => by simp [Activation.isLoop] at h hl; simp [h] at hl, hd.2⟩
  | loopEnd r =>
    simp only [Program.step, loopEnd] at hs
    repeat' split at hs
    all_goals cases hs
    · exact hd
    · next a b bs hp _ =>
      rw [hp, List.forall_mem_cons, List.forall_mem_cons] at hd
      exact List.forall_mem_cons.2 hd.2

theorem log_step {h : Hook} (hna : ∀ i, h ≠ .access i) (hs : p.step h = some p') :
    p'.log = p.log := by
  cases h with
  | access i => exact absurd rfl (hna i)
  | recordCall | recordCallReturn => cases hs; rfl
  | _ =>
    simp only [Program.step, detachContinue, loopBegin, funcEntry, funcExit, task, taskExit, sync,
      loopIterationBegin, loopIterationEnd, loopEnd] at hs
    repeat' split at hs
    all_goals cases hs
    all_goals rfl

end Program

end Cilksan
