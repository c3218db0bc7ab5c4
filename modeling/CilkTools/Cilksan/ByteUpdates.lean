/-
Range updates byte by byte: `update` and `check_and_update_write` should run
the rule of a single location at each byte of the range.

`update_byteWise_iff` says when they do: an insertion may take a line's other
entry for the one it started at, and then sets parallel entries as well.
-/
import CilkTools.Cilksan.ShadowMem

namespace Cilksan

open UpdateIterator (Swallowed Replaced)

variable {f : Strand} {accId p e b : Nat} {d d' : Pages MemoryAccess}

/-- The rule of a location, at each byte of the range. -/
def ByteWise (f : Strand) (accId : Nat) (d d' : Pages MemoryAccess) (p e : Nat) : Prop :=
  ∀ b, d'.get b =
    if p ≤ b ∧ b < e then Location.update f.previousAccessInParallel (f.access accId) (d.get b)
      else d.get b

/-- A write–write race with every parallel entry of the range. -/
def ReportsAll (f : Strand) (d : Pages MemoryAccess) (p e : Nat) (races : List Race) : Prop :=
  ∀ b y, p ≤ b → b < e → d.get b = some y → f.previousAccessInParallel y = true →
    ∃ r ∈ races, r.type = .wwRace ∧ r.prev.verFunc = y.verFunc

theorem verFunc_par (f : Strand) (x y : MemoryAccess) (h : x.verFunc = y.verFunc) :
    f.previousAccessInParallel x = f.previousAccessInParallel y := by
  simp only [MemoryAccess.verFunc, Prod.mk.injEq] at h
  unfold Strand.previousAccessInParallel
  rw [h.1, h.2]

theorem foldl_append {α : Type u} {β : Type v} (g : α → List β) (xs : List α) (s : List β) :
    xs.foldl (fun s x => s ++ g x) s = s ++ xs.flatMap g := by
  induction xs generalizing s with
  | nil => simp
  | cons x xs ih => rw [List.foldl_cons, ih, List.flatMap_cons, List.append_assoc]

theorem mem_raceWith {type : RaceType} {x : Stretch MemoryAccess} {r : Race} :
    r ∈ raceWith f accId type x ↔
    r.type = type ∧ r.accId = accId ∧ r.addr = x.start ∧ x.prev = some r.prev ∧
      f.previousAccessInParallel r.prev = true := by
  unfold raceWith
  cases h : x.prev with
  | none => simp
  | some y =>
    simp only
    split
    · next hp =>
      rw [List.mem_singleton]
      constructor
      · rintro rfl
        exact ⟨rfl, rfl, rfl, rfl, hp⟩
      · rintro ⟨h₁, h₂, h₃, h₄, -⟩
        cases r
        cases h₄
        cases h₁
        cases h₂
        cases h₃
        rfl
    · next hp =>
      refine iff_of_false (List.not_mem_nil) ?_
      rintro ⟨-, -, -, h₄, h₅⟩
      cases h₄
      exact hp h₅

/-- Both functions run the same walk; the races are those of its stretches. -/
theorem update_walk (f : Strand) (accId : Nat) {n : Nat} (hw : d.WF) (hm : d.Mapped p (p + n)) :
    ∃ xs d', UpdateIterator.Walk MemoryAccess.verFunc f.previousAccessInParallel (f.maSetFn accId)
    (p + n) d p xs d' ∧
      update f accId d p n = d' ∧
      checkAndUpdateWrite f accId d p n = (d', xs.flatMap (raceWith f accId .wwRace)) := by
  obtain ⟨xs, d', hwalk, heq⟩ :=
    UpdateIterator.updateRange_walk hw MemoryAccess.verFunc f.previousAccessInParallel
      (f.maSetFn accId) (.inl hm)
  have hchunk := Chunk.mk_eq_upTo p n
  refine ⟨xs, d', hwalk, ?_, ?_⟩
  · unfold update
    rw [hchunk, heq]
  · unfold checkAndUpdateWrite
    rw [hchunk, heq, foldl_append, List.nil_append]

theorem checkAndUpdateWrite_fst (f : Strand) (accId : Nat) {n : Nat} (hw : d.WF)
    (hm : d.Mapped p (p + n)) : (checkAndUpdateWrite f accId d p n).1 = update f accId d p n := by
  obtain ⟨xs, d', -, h₁, h₂⟩ := update_walk f accId hw hm
  rw [h₁, h₂]

theorem maSetFn_eq_access {x : Option MemoryAccess} :
    f.maSetFn accId x = f.access accId ↔
    ∀ y, x = some y → y.func = f.func → y.version = f.version := by
  unfold Strand.maSetFn Strand.access
  cases x with
  | none => simp [MemoryAccess.set]
  | some y =>
    unfold MemoryAccess.set
    by_cases h : y.func = f.func
    · simp [h, MemoryAccess.mk.injEq]
    · simp [h]

theorem maSetFn_eq_self {y : MemoryAccess} :
    f.maSetFn accId (some y) = y ↔ y.func = f.func ∧ y.accId = accId := by
  unfold Strand.maSetFn MemoryAccess.set
  cases y with
  | mk func version acc =>
    by_cases h : func = f.func
    · simp [h, eq_comm]
    · simp [h, Ne.symm h]

/-- When nothing goes wrong: the entries in series with the strand's node have
its version, no parallel entry is swallowed unless it is what is written, and
of each parallel entry that is swallowed another byte is left to report. -/
structure UpdatesCleanly (f : Strand) (accId : Nat) (d : Pages MemoryAccess)
    (p e : Nat) : Prop where
  version : ∀ b y, p ≤ b → b < e → d.get b = some y → f.previousAccessInParallel y = false →
    y.func = f.func → y.version = f.version
  kept : ∀ b y, p ≤ b → b < e → d.get b = some y → f.previousAccessInParallel y = true →
    Swallowed MemoryAccess.verFunc f.previousAccessInParallel d p e b →
    y.func = f.func ∧ y.accId = accId
  reported : ∀ b y, p ≤ b → b < e → d.get b = some y → f.previousAccessInParallel y = true →
    ∃ c z, p ≤ c ∧ c < e ∧ d.get c = some z ∧ z.verFunc = y.verFunc ∧
      ¬ Swallowed MemoryAccess.verFunc f.previousAccessInParallel d p e c

theorem not_inSeries {y : MemoryAccess} (h : d.get b = some y)
    (hp : f.previousAccessInParallel y = true) :
    inSeries f.previousAccessInParallel (d.get b) = false := by
  simp [h, inSeries, hp]

theorem locationUpdate_of_inSeries {α : Type u} {par : α → Bool} {a : α} {x : Option α}
    (h : inSeries par x = true) : Location.update par a x = some a := by
  cases x with
  | none => rfl
  | some y =>
    have hy : par y = false := by simpa [inSeries] using h
    simp [Location.update, hy]

theorem locationUpdate_of_not_inSeries {α : Type u} {par : α → Bool} {a : α} {x : Option α}
    (h : inSeries par x = false) : Location.update par a x = x := by
  cases x with
  | none => cases h
  | some y =>
    have hy : par y = true := by simpa [inSeries] using h
    simp [Location.update, hy]

/-- The table is as it should be if entries have the right versions and none
is swallowed. -/
theorem byteWise_iff {xs : List (Stretch MemoryAccess)} (hw : d.WF)
    (h : UpdateIterator.Walk MemoryAccess.verFunc f.previousAccessInParallel
      (f.maSetFn accId) e d p xs d') :
    ByteWise f accId d d' p e ↔
      (∀ b y, p ≤ b → b < e → d.get b = some y → f.previousAccessInParallel y = false →
        y.func = f.func → y.version = f.version) ∧
      ∀ b y, p ≤ b → b < e → d.get b = some y → f.previousAccessInParallel y = true →
        Swallowed MemoryAccess.verFunc f.previousAccessInParallel d p e b →
        y.func = f.func ∧ y.accId = accId := by
  have hkey := verFunc_par f
  constructor
  · intro hb
    refine ⟨fun b y h₁ h₂ hy hser => ?_, fun b y h₁ h₂ hy hpar hsw => ?_⟩
    · have hs : inSeries f.previousAccessInParallel (d.get b) = true := by simp [hy, inSeries, hser]
      have := hb b
      rw [h.get_replaced hw hkey h₁ h₂ (.inl hs), if_pos ⟨h₁, h₂⟩, locationUpdate_of_inSeries hs,
        Option.some.injEq] at this
      exact maSetFn_eq_access.1 this y hy
    · have := hb b
      rw [h.get_replaced hw hkey h₁ h₂ (.inr hsw), if_pos ⟨h₁, h₂⟩,
        locationUpdate_of_not_inSeries (not_inSeries hy hpar), hy, Option.some.injEq] at this
      exact maSetFn_eq_self.1 this
  · intro hvk b
    obtain ⟨hv, hk⟩ := hvk
    by_cases hin : p ≤ b ∧ b < e
    · rw [if_pos hin]
      cases hs : inSeries f.previousAccessInParallel (d.get b) with
      | true =>
        rw [h.get_replaced hw hkey hin.1 hin.2 (.inl hs), locationUpdate_of_inSeries hs,
          Option.some.injEq]
        refine maSetFn_eq_access.2 fun y hy => hv b y hin.1 hin.2 hy ?_
        rw [hy] at hs
        simpa [inSeries] using hs
      | false =>
        obtain ⟨y, hy⟩ : ∃ y, d.get b = some y := by
          cases hy : d.get b with
          | none => rw [hy] at hs; cases hs
          | some y => exact ⟨y, rfl⟩
        have hpar : f.previousAccessInParallel y = true := by
          rw [hy] at hs
          simpa [inSeries] using hs
        rw [locationUpdate_of_not_inSeries hs]
        by_cases hsw : Swallowed MemoryAccess.verFunc f.previousAccessInParallel d p e b
        · rw [h.get_replaced hw hkey hin.1 hin.2 (.inr hsw), hy]
          exact congrArg some (maSetFn_eq_self.2 (hk b y hin.1 hin.2 hy hpar hsw))
        · refine h.get_not_replaced hw hkey hin.1 fun hr => hr.elim (fun h => ?_) hsw
          rw [hs] at h
          cases h
    · rw [if_neg hin, h.get_of_lt (by omega)]

theorem reportsAll_iff {xs : List (Stretch MemoryAccess)} (hw : d.WF)
    (h : UpdateIterator.Walk MemoryAccess.verFunc f.previousAccessInParallel
      (f.maSetFn accId) e d p xs d') :
    ReportsAll f d p e (xs.flatMap (raceWith f accId .wwRace)) ↔
      ∀ b y, p ≤ b → b < e → d.get b = some y → f.previousAccessInParallel y = true →
        ∃ c z, p ≤ c ∧ c < e ∧ d.get c = some z ∧ z.verFunc = y.verFunc ∧
          ¬ Swallowed MemoryAccess.verFunc f.previousAccessInParallel d p e c := by
  have hkey := verFunc_par f
  have hmem :
      ∀ k, (∃ r ∈ xs.flatMap (raceWith f accId .wwRace), r.type = .wwRace ∧ r.prev.verFunc = k) ↔
      ∃ x ∈ xs, ∃ y, x.prev = some y ∧ f.previousAccessInParallel y = true ∧
      y.verFunc = k := fun k => by
    constructor
    · intro ⟨r, hr, _, hk⟩
      obtain ⟨x, hx, hr⟩ := List.mem_flatMap.1 hr
      obtain ⟨-, -, -, h₁, h₂⟩ := mem_raceWith.1 hr
      exact ⟨x, hx, r.prev, h₁, h₂, hk⟩
    · intro ⟨x, hx, y, h₁, h₂, hk⟩
      exact ⟨⟨y, accId, x.start, .wwRace⟩,
        List.mem_flatMap.2 ⟨x, hx, mem_raceWith.2 ⟨rfl, rfl, rfl, h₁, h₂⟩⟩, rfl, hk⟩
  unfold ReportsAll
  refine forall_congr' fun b => forall_congr' fun y => forall_congr' fun _ => forall_congr' fun _ =>
      forall_congr' fun _ =>
    forall_congr' fun hpar => ?_
  rw [hmem, h.exists_kept_iff hw hkey]
  constructor
  · intro ⟨c, h₁, h₂, hr, z, hz, hk⟩
    exact ⟨c, z, h₁, h₂, hz, hk, fun hs => hr (.inr hs)⟩
  · intro ⟨c, z, h₁, h₂, hz, hk, hs⟩
    refine ⟨c, h₁, h₂, fun hr => hr.elim (fun h => ?_) hs, z, hz, hk⟩
    rw [not_inSeries hz ((verFunc_par f _ _ hk).trans hpar)] at h
    cases h

/-- **Range updates.** `update` and `check_and_update_write` treat a range
byte by byte, and the second reports every parallel entry, exactly when nothing
goes wrong. -/
theorem update_byteWise_iff (f : Strand) (accId p n : Nat) (hw : d.WF) (hm : d.Mapped p (p + n)) :
    ByteWise f accId d (update f accId d p n) p (p + n) ∧
        ByteWise f accId d (checkAndUpdateWrite f accId d p n).1 p (p + n) ∧
        ReportsAll f d p (p + n) (checkAndUpdateWrite f accId d p n).2 ↔
      UpdatesCleanly f accId d p (p + n) := by
  obtain ⟨xs, d', hwalk, h₁, h₂⟩ := update_walk f accId hw hm
  rw [h₁, h₂, byteWise_iff hw hwalk, reportsAll_iff hw hwalk]
  exact ⟨fun h => ⟨h.1.1, h.1.2, h.2.2⟩,
    fun h => ⟨⟨h.version, h.kept⟩, ⟨h.version, h.kept⟩, h.reported⟩⟩

/-- Accesses of nodes 1 and 2, the first one parallel, in entries of 8 bytes. -/
def swallowingLine : Line MemoryAccess where
  lgGrainsize := 3
  numNonNullEls := 3
  data := some ([none, some ⟨1, 0, 10⟩, some ⟨2, 0, 11⟩, some ⟨1, 0, 10⟩] ++ List.replicate 60 none)

def swallowingStrand : Strand := { func := 3, version := 0, inParallel := fun func _ => func == 1 }

theorem swallowingLine_wf : swallowingLine.WF :=
  ⟨by decide, fun ds h => by cases h; rfl, by decide +kernel⟩

/-- The access to bytes 20 to 27 takes the entry of byte 8 for that of byte 20. -/
theorem update_swallows :
    ¬ (ByteWise swallowingStrand 5 (.single swallowingLine)
      (update swallowingStrand 5 (.single swallowingLine) 20 8) 20 (20 + 8) ∧
      ByteWise swallowingStrand 5 (.single swallowingLine)
        (checkAndUpdateWrite swallowingStrand 5 (.single swallowingLine) 20 8).1 20 (20 + 8) ∧
      ReportsAll swallowingStrand (.single swallowingLine) 20 (20 + 8)
        (checkAndUpdateWrite swallowingStrand 5 (.single swallowingLine) 20 8).2) := by
  intro h
  have h24 := h.1 24
  have hset : (update swallowingStrand 5 (.single swallowingLine) 20 8).get 24 =
      some ⟨3, 0, 5⟩ := by decide +kernel
  rw [hset] at h24
  revert h24
  decide +kernel

/-- Bytes 16 to 23, which fit the entries. -/
theorem update_byteWise_iff_aligned :
    ByteWise swallowingStrand 5 (.single swallowingLine)
    (update swallowingStrand 5 (.single swallowingLine) 16 8) 16 (16 + 8) ∧
        ByteWise swallowingStrand 5 (.single swallowingLine)
          (checkAndUpdateWrite swallowingStrand 5 (.single swallowingLine) 16 8).1 16 (16 + 8) ∧
        ReportsAll swallowingStrand (.single swallowingLine) 16 (16 + 8)
          (checkAndUpdateWrite swallowingStrand 5 (.single swallowingLine) 16 8).2 ↔
      UpdatesCleanly swallowingStrand 5 (.single swallowingLine) 16 (16 + 8) :=
  update_byteWise_iff swallowingStrand 5 16 8 (Pages.single_wf swallowingLine_wf)
    (Pages.single_mapped (by decide))

end Cilksan
