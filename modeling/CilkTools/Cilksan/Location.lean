/-
What the shadow memory keeps about one memory location, and the rules it
runs there (`SimpleShadowMem`): the last reader and the last writer, each
replaced by a new access of its kind unless it is parallel to it.

`reports_iff_race`: given an exact answer to "is the stored access logically
parallel to the current strand", a depth-first run reports a race on the
location exactly when two of its accesses race.
-/
import CilkTools.SeriesParallel

namespace Cilksan

open SeriesParallel

inductive AccessKind
  | read
  | write
  deriving DecidableEq, Repr

/-- Types of races, previous access first. -/
inductive RaceType
  | rwRace
  | wrRace
  | wwRace
  deriving DecidableEq, Repr

/-- The entries of the read and the write dictionary at one location. -/
structure Location (α : Type u) where
  reader : Option α := none
  writer : Option α := none

namespace Location

variable {α : Type u}

/-- Put `a` in an entry, unless a parallel access holds it. -/
def update (par : α → Bool) (a : α) : Option α → Option α
  | none => some a
  | some x => if par x then some x else some a

/-- The race with a stored access. -/
def checkRace (par : α → Bool) (t : RaceType) : Option α → List (α × RaceType)
  | none => []
  | some x => if par x then [(x, t)] else []

/-- A read: update the reader, check the writer. -/
def checkRacesAndUpdateWithRead (par : α → Bool) (a : α) (s : Location α) :
    Location α × List (α × RaceType) :=
  ({ s with reader := update par a s.reader }, checkRace par .wrRace s.writer)

/-- A write: check and update the writer, check the reader. -/
def checkRacesAndUpdateWithWrite (par : α → Bool) (a : α) (s : Location α) :
    Location α × List (α × RaceType) :=
  ({ s with writer := update par a s.writer },
    checkRace par .wwRace s.writer ++ checkRace par .rwRace s.reader)

end Location

/-- An access to the location: its strand, and what it does. -/
abbrev StrandAccess := Nat × AccessKind

namespace StrandAccess

/-- One of the two writes. -/
def Conflict (e f : StrandAccess) : Prop := e.2 = .write ∨ f.2 = .write

end StrandAccess

open StrandAccess

section Detect

variable (par : Nat → Nat → Bool)

/-- The rules for access `e`, with `par` as the oracle. -/
def checkRaces (s : Location StrandAccess) (e : StrandAccess) :
    Location StrandAccess × List (StrandAccess × RaceType) :=
  match e.2 with
  | .read => s.checkRacesAndUpdateWithRead (fun x => par x.1 e.1) e
  | .write => s.checkRacesAndUpdateWithWrite (fun x => par x.1 e.1) e

/-- The location after the accesses `l`, and what was reported on the way. -/
def detect : List StrandAccess → Location StrandAccess → List (StrandAccess × RaceType)
  | [], _ => []
  | e :: l, s => (checkRaces par s e).2 ++ detect l (checkRaces par s e).1

end Detect

/-- The entry `x` stands for every access of kind `k` in `pre`: whatever one
of them is parallel to from now on, so is `x`. -/
structure StandsFor (par : Nat → Nat → Bool) (pre : List StrandAccess) (k : AccessKind)
    (x : Option StrandAccess) : Prop where
  mem : ∀ y, x = some y → y ∈ pre ∧ y.2 = k
  covers : ∀ e ∈ pre, e.2 = k → ∃ y, x = some y ∧
    ∀ j, (∀ f ∈ pre, f.1 ≤ j) → par e.1 j = true → par y.1 j = true

namespace StandsFor

variable {par : Nat → Nat → Bool} {pre : List StrandAccess} {k : AccessKind}
  {x : Option StrandAccess}

theorem nil : StandsFor par [] k none := ⟨by simp, by simp⟩

/-- An access of the other kind changes nothing. -/
theorem other (h : StandsFor par pre k x) {e : StrandAccess} (he : e.2 ≠ k) :
    StandsFor par (pre ++ [e]) k x := by
  refine ⟨fun y hy => ?_, fun f hf hk => ?_⟩
  · obtain ⟨h₁, h₂⟩ := h.mem y hy
    exact ⟨List.mem_append_left _ h₁, h₂⟩
  · simp only [List.mem_append, List.mem_singleton] at hf
    rcases hf with hf | rfl
    · obtain ⟨y, hy, hc⟩ := h.covers f hf hk
      exact ⟨y, hy, fun j hj => hc j fun g hg => hj g (List.mem_append_left _ hg)⟩
    · exact absurd hk he

/-- The update rule keeps an entry that stands for all: a replaced access
precedes the new one in series, a kept one is parallel to it. -/
theorem update (hp : SerialOrder par) (h : StandsFor par pre k x) {e : StrandAccess} (he : e.2 = k)
    (hle : ∀ f ∈ pre, f.1 ≤ e.1) :
    StandsFor par (pre ++ [e]) k (Location.update (fun y => par y.1 e.1) e x) := by
  cases x with
  | none =>
    refine ⟨by simp [Location.update, he], fun f hf hk => ⟨e, rfl, fun j _ hj => ?_⟩⟩
    simp only [List.mem_append, List.mem_singleton] at hf
    rcases hf with hf | rfl
    · obtain ⟨y, hy, _⟩ := h.covers f hf hk
      cases hy
    · exact hj
  | some y =>
    obtain ⟨hy, hyk⟩ := h.mem y rfl
    have hold : ∀ f ∈ pre, f.2 = k → ∀ j, (∀ g ∈ pre ++ [e], g.1 ≤ j) → par f.1 j = true →
        par y.1 j = true := by
      intro f hf hk j hj
      obtain ⟨y', hy', hc⟩ := h.covers f hf hk
      cases hy'
      exact hc j fun g hg => hj g (List.mem_append_left _ hg)
    simp only [Location.update]
    split
    · next hpar =>
      refine ⟨fun z hz => ?_, fun f hf hk => ⟨y, rfl, fun j hj hfj => ?_⟩⟩
      · cases hz
        exact ⟨List.mem_append_left _ hy, hyk⟩
      · simp only [List.mem_append, List.mem_singleton] at hf
        rcases hf with hf | rfl
        · exact hold f hf hk j hj hfj
        · exact hp.trans (hle y hy) (hj f (by simp)) hpar hfj
    · next hser =>
      refine ⟨by simp [he], fun f hf hk => ⟨e, rfl, fun j hj hfj => ?_⟩⟩
      simp only [List.mem_append, List.mem_singleton] at hf
      rcases hf with hf | rfl
      · exact hp.series_par (hle y hy) (hj e (by simp)) (by simpa using hser)
          (hold f hf hk j hj hfj)
      · exact hfj

/-- The stored access answers for all: it races with a later strand exactly
when some access of its kind does. -/
theorem par_iff (h : StandsFor par pre k x) {j : Nat} (hle : ∀ f ∈ pre, f.1 ≤ j) (t : RaceType) :
    Location.checkRace (fun y => par y.1 j) t x ≠ [] ↔ ∃ e ∈ pre, e.2 = k ∧ par e.1 j = true := by
  constructor
  · intro hne
    cases x with
    | none => simp [Location.checkRace] at hne
    | some y =>
      simp only [Location.checkRace] at hne
      split at hne
      · next hpar => exact ⟨y, (h.mem y rfl).1, (h.mem y rfl).2, hpar⟩
      · exact absurd rfl hne
  · rintro ⟨e, he, hk, hpar⟩
    obtain ⟨y, rfl, hc⟩ := h.covers e he hk
    simp [Location.checkRace, hc j hle hpar]

end StandsFor

/-- Both entries stand for the accesses of their kind. -/
def Represents (par : Nat → Nat → Bool) (pre : List StrandAccess)
    (s : Location StrandAccess) : Prop :=
  StandsFor par pre .read s.reader ∧ StandsFor par pre .write s.writer

theorem Represents.step {par pre s} (hp : SerialOrder par) (h : Represents par pre s)
    {e : StrandAccess}
    (hle : ∀ f ∈ pre, f.1 ≤ e.1) : Represents par (pre ++ [e]) (checkRaces par s e).1 := by
  obtain ⟨hr, hw⟩ := h
  cases hk : e.2 with
  | read =>
    simp only [checkRaces, hk, Location.checkRacesAndUpdateWithRead]
    exact ⟨hr.update hp hk hle, hw.other (by simp [hk])⟩
  | write =>
    simp only [checkRaces, hk, Location.checkRacesAndUpdateWithWrite]
    exact ⟨hr.other (by simp [hk]), hw.update hp hk hle⟩

/-- An access reports exactly when it races with an earlier one. -/
theorem Represents.reports_iff {par pre s} (h : Represents par pre s) {e : StrandAccess}
    (hle : ∀ f ∈ pre, f.1 ≤ e.1) :
    (checkRaces par s e).2 ≠ [] ↔ ∃ f ∈ pre, par f.1 e.1 = true ∧ Conflict f e := by
  obtain ⟨hr, hw⟩ := h
  cases hk : e.2 with
  | read =>
    simp only [checkRaces, hk, Location.checkRacesAndUpdateWithRead, hw.par_iff hle, Conflict]
    constructor
    · rintro ⟨f, hf, hfk, hpar⟩
      exact ⟨f, hf, hpar, .inl hfk⟩
    · rintro ⟨f, hf, hpar, hc⟩
      exact ⟨f, hf, by simpa using hc, hpar⟩
  | write =>
    simp only [checkRaces, hk, Location.checkRacesAndUpdateWithWrite, ne_eq, List.append_eq_nil_iff,
      not_and_or, Conflict, or_true, and_true]
    simp only [hw.par_iff hle, hr.par_iff hle]
    constructor
    · rintro (⟨f, hf, _, hpar⟩ | ⟨f, hf, _, hpar⟩) <;> exact ⟨f, hf, hpar⟩
    · rintro ⟨f, hf, hpar⟩
      cases hfk : f.2 with
      | read => exact .inr ⟨f, hf, hfk, hpar⟩
      | write => exact .inl ⟨f, hf, hfk, hpar⟩

/-- Run over the accesses left, from entries that represent those done. -/
theorem detect_iff {par} (hp : SerialOrder par) : ∀ {l pre s}, Represents par pre s →
    (pre ++ l).Pairwise (fun a b => a.1 ≤ b.1) →
    (detect par l s ≠ [] ↔
      ∃ pre' e post, l = pre' ++ e :: post ∧ ∃ f ∈ pre ++ pre', par f.1 e.1 = true ∧ Conflict f e)
  | [], pre, s, _, _ => by simp [detect]
  | e :: l, pre, s, h, hs => by
    have hle : ∀ f ∈ pre, f.1 ≤ e.1 := fun f hf => (List.pairwise_append.1 hs).2.2 f hf e (by simp)
    have ih := detect_iff hp (l := l) (h.step hp hle) (by simpa using hs)
    simp only [detect, ne_eq, List.append_eq_nil_iff, not_and_or]
    rw [← ne_eq, h.reports_iff hle, ← ne_eq, ih]
    constructor
    · rintro (hrace | ⟨pre', g, post, rfl, hrace⟩)
      · exact ⟨[], e, l, rfl, by simpa using hrace⟩
      · exact ⟨e :: pre', g, post, rfl, by simpa using hrace⟩
    · rintro ⟨pre', g, post, heq, hrace⟩
      cases pre' with
      | nil =>
        obtain ⟨rfl, rfl⟩ := List.cons.inj heq
        exact .inl (by simpa using hrace)
      | cons e' pre' =>
        obtain ⟨rfl, rfl⟩ := List.cons.inj heq
        exact .inr ⟨pre', g, post, rfl, by simpa using hrace⟩

/-- **Determinacy races at one location.** For a series-parallel computation
run depth first, whose strands access the location as their labels say, the
tool reports a race there exactly when two parallel accesses, one of them a
write, exist. -/
theorem reports_iff_race (c : Comp (List AccessKind)) :
    detect c.parallel c.trace {} ≠ [] ↔
      ∃ e ∈ c.trace, ∃ f ∈ c.trace, c.parallel e.1 f.1 = true ∧ Conflict e f := by
  have hrep : Represents c.parallel [] {} := ⟨.nil, .nil⟩
  rw [detect_iff c.serialOrder hrep (by simpa using c.trace_sorted)]
  constructor
  · rintro ⟨pre, e, post, hl, f, hf, hpar, hc⟩
    rw [hl]
    exact ⟨f, by simp at hf; simp [hf], e, by simp, hpar, hc⟩
  · rintro ⟨e, he, f, hf, hpar, hc⟩
    -- Of the two, the one later in the trace is the one that reports.
    obtain ⟨pre, post, hl⟩ := List.append_of_mem hf
    rw [hl] at he
    simp only [List.mem_append, List.mem_cons] at he
    rcases he with he | rfl | he
    · exact ⟨pre, f, post, hl, e, by simpa using he, hpar, hc⟩
    · rw [c.parallel_self] at hpar
      cases hpar
    · obtain ⟨mid, post', rfl⟩ := List.append_of_mem he
      refine ⟨pre ++ f :: mid, e, post', by simp [hl], f, by simp, ?_, hc.symm⟩
      rw [c.parallel_symm]
      exact hpar

end Cilksan
