/-
What an access that is recorded does to the shadow memory, byte by byte, and
the races it reports: at which byte, and with which entry there. On the fast
path all races are reported and no entry is swallowed.
-/
import CilkTools.Cilksan.RaceDetector

namespace Cilksan

namespace RaceType

/-- The previous access is a read. -/
def prevIsRead : RaceType → Bool
  | .rwRace => true
  | .wrRace | .wwRace => false

/-- The access that finds the race is a read. -/
def isRead : RaceType → Bool
  | .wrRace => true
  | .rwRace | .wwRace => false

end RaceType

variable {f : Strand} {accId p n b lg : Nat} {d d' : Pages MemoryAccess}
  {type : RaceType} {r : Race}
variable {m : SimpleShadowMem} {isRead : Bool}

/-- The race is with the entry at its byte, which is parallel. -/
structure RaceAt (f : Strand) (accId : Nat) (type : RaceType) (d : Pages MemoryAccess) (p n : Nat)
    (r : Race) : Prop where
  type_eq : r.type = type
  accId_eq : r.accId = accId
  le : p ≤ r.addr
  lt : r.addr < p + n
  entry : d.get r.addr = some r.prev
  parallel : f.previousAccessInParallel r.prev = true

namespace RaceAt

theorem congr (h : RaceAt f accId type d p n r) (hd : ∀ b, d.get b = d'.get b) :
    RaceAt f accId type d' p n r :=
  { h with entry := (hd _).symm.trans h.entry }

theorem of_raceWith {x : Stretch MemoryAccess} (hr : r ∈ raceWith f accId type x)
    (hle : p ≤ x.start) (hlt : x.start < p + n)
    (hx : x.prev = d.get x.start) : RaceAt f accId type d p n r := by
  obtain ⟨h₁, h₂, h₃, h₄, h₅⟩ := mem_raceWith.1 hr
  exact ⟨h₁, h₂, h₃ ▸ hle, h₃ ▸ hlt, h₃ ▸ hx.symm.trans h₄, h₅⟩

theorem of_checkRace (hw : d.WF) (hr : r ∈ checkRace f accId type d p n) :
    RaceAt f accId type d p n r := by
  obtain ⟨p', xs, hle, -, -, hwalk, heq⟩ :=
    QueryIterator.queryRange_walk hw MemoryAccess.verFunc p (p + n)
  unfold checkRace at hr
  rw [Chunk.mk_eq_upTo p n, heq, foldl_append, List.nil_append] at hr
  obtain ⟨x, hx, hr⟩ := List.mem_flatMap.1 hr
  have hc := hwalk.covers hx
  exact of_raceWith hr (Nat.le_trans hle hc.le) hc.lt_end hc.prev

theorem of_checkAndUpdateWrite (hw : d.WF) (hm : d.Mapped p (p + n))
    (hr : r ∈ (checkAndUpdateWrite f accId d p n).2) : RaceAt f accId .wwRace d p n r := by
  obtain ⟨xs, d', hwalk, -, h₂⟩ := update_walk f accId hw hm
  rw [h₂] at hr
  obtain ⟨x, hx, hr⟩ := List.mem_flatMap.1 hr
  obtain ⟨h₁, -, h₃, h₄, -⟩ := hwalk.covers hw (verFunc_par f) hx
  exact of_raceWith hr h₁ h₃ h₄

theorem of_raceWithEntry (hn : 0 < n)
    (hr : r ∈ SimpleShadowMem.raceWithEntry f accId type p (d.get p)) :
    RaceAt f accId type d p n r :=
  of_raceWith hr (Nat.le_refl p) (Nat.lt_add_of_pos_right hn) rfl

theorem of_checkFast (ha : SmallAccess p n lg) (hw : d.WF)
    (hr : r ∈ SimpleShadowMem.checkFast f accId type d p n) : RaceAt f accId type d p n r := by
  unfold SimpleShadowMem.checkFast at hr
  cases hl : d.getLine p with
  | none =>
    rw [hl] at hr
    cases hr
  | some l =>
    simp only [hl] at hr
    split at hr
    · cases hr
    · split at hr
      · exact of_checkRace hw hr
      · rw [← (hw p l hl).shadow_eq, ← Pages.get_of_line hl] at hr
        exact of_raceWithEntry ha.pos hr

/-- The part of a fast write that checks the writes. -/
theorem of_checkAndUpdateFast (ha : SmallAccess p n lg) (hw : d.WF)
    (hp : (d (page p)).isSome = true)
    (hr : r ∈ if 2 ^ (SimpleShadowMem.lineMustExist d p n).lgGrainsize ≠ n then
        (checkAndUpdateWrite f accId (d.setLine p (SimpleShadowMem.lineMustExist d p n)) p n).2
      else SimpleShadowMem.raceWithEntry f accId .wwRace p
        ((SimpleShadowMem.lineMustExist d p n).entry
          ((SimpleShadowMem.lineMustExist d p n).getIdx (byte p)))) :
    RaceAt f accId .wwRace d p n r := by
  obtain ⟨hw₁, hget, -, hwl, -, hm⟩ := lineMustExist_spec ha hw hp
  split at hr
  · exact (of_checkAndUpdateWrite hw₁ hm hr).congr hget
  · rw [← hwl.shadow_eq, ← Pages.get_setLine_self rfl] at hr
    exact (of_raceWithEntry ha.pos hr).congr hget

end RaceAt

/-- An access of a range sets entries there, and reports races there. -/
structure RangeAccess (f : Strand) (accId : Nat) (isRead : Bool) (p n : Nat)
    (m m' : SimpleShadowMem) (races : List Race) : Prop where
  ok : m'.LockedOk
  entries : ∀ b, (m'.dictionary isRead).table.get b = (m.dictionary isRead).table.get b ∨
    (p ≤ b ∧ b < p + n) ∧
    (m'.dictionary isRead).table.get b = some (f.maSetFn accId ((m.dictionary isRead).table.get b))
  other : m'.dictionary (!isRead) = m.dictionary (!isRead)
  sound : ∀ r ∈ races, r.type.isRead = isRead ∧
    RaceAt f accId r.type (m.dictionary r.type.prevIsRead).table p n r

/-- Each byte's entry in series is set, and the parallel ones are reported. -/
structure FastAccess (f : Strand) (accId : Nat) (isRead : Bool) (p n : Nat) (m m' : SimpleShadowMem)
    (races : List Race) : Prop where
  sets : SetsInSeries f accId (m.dictionary isRead).table (m'.dictionary isRead).table p n
  complete : ∀ type : RaceType, type.isRead = isRead → ∀ b y, p ≤ b → b < p + n →
    (m.dictionary type.prevIsRead).table.get b = some y → f.previousAccessInParallel y = true →
    ∃ r ∈ races, r.type = type

namespace SimpleShadowMem

theorem recordMemHelper_fst (f : Strand) (accId : Nat) (isRead : Bool) (m : SimpleShadowMem)
    (addr memSize alignment : Nat) :
    (m.recordMemHelper f accId isRead addr memSize alignment).1 =
    m.recordMem f accId isRead addr memSize alignment := by
  unfold recordMemHelper recordMem
  split
  · rfl
  · split
    · rw [setOccupiedFast_eq]
      cases isRead <;> rfl
    · rfl

/-- The races of an access on the fast path. -/
theorem recordMemHelper_races {alignment : Nat} (f : Strand) (accId : Nat) (isRead : Bool)
    (hn : n ≠ 0) (hfast : takesFastPath n alignment = true)
    (ha : SmallAccess p n lg) (hm : m.LockedOk) :
    (∀ r ∈ (m.recordMemHelper f accId isRead p n alignment).2,
      r.type.isRead = isRead ∧ RaceAt f accId r.type (m.dictionary r.type.prevIsRead).table p n r) ∧
    ∀ type : RaceType, type.isRead = isRead → ∀ b y, p ≤ b → b < p + n →
      (m.dictionary type.prevIsRead).table.get b = some y → f.previousAccessInParallel y = true →
        ∃ r ∈ (m.recordMemHelper f accId isRead p n alignment).2, r.type = type := by
  unfold recordMemHelper
  rw [if_neg hn, if_pos hfast, setOccupiedFast_eq]
  simp only [Bool.not_true, Bool.false_eq_true, if_false]
  cases isRead with
  | true =>
    have hw : m.writes.table.WF := hm.wf false
    refine ⟨fun r hr => ?_, fun type ht b y h₁ h₂ hy hpar => ?_⟩
    · have hat : RaceAt f accId .wrRace m.writes.table p n r := .of_checkFast ha hw hr
      rw [hat.type_eq]
      exact ⟨rfl, hat⟩
    · cases type with
      | rwRace | wwRace => cases ht
      | wrRace =>
        have hrep : Reported (checkFast f accId .wrRace m.writes.table p n) .wrRace y.verFunc :=
          (checkFast_reported ha .wrRace .wrRace hw y.verFunc).2 ⟨rfl, b, y, h₁, h₂, hy, hpar, rfl⟩
        obtain ⟨r, hr, hrt, -⟩ := hrep
        exact ⟨r, hr, hrt⟩
  | false =>
    have hr : m.reads.table.WF := hm.wf true
    obtain ⟨hocc, hp⟩ := allocatePage_spec (p := p) (hm.occupancy false) p
    have hw := hocc.wf (hm.wf false)
    obtain ⟨-, -, hraces⟩ :=
      checkWriteFast_eq f accId { m with writes := m.writes.allocatePage (page p) } ha hw hp rfl
    simp only [Bool.false_eq_true, if_false]
    rw [hraces]
    refine ⟨fun r hmem => ?_, fun type ht b y h₁ h₂ hy hpar => ?_⟩
    · rcases List.mem_append.1 hmem with hmem | hmem
      · have hat := (RaceAt.of_checkAndUpdateFast ha hw hp hmem).congr hocc.get
        rw [hat.type_eq]
        exact ⟨rfl, hat⟩
      · have hat : RaceAt f accId .rwRace m.reads.table p n r := .of_checkFast ha hr hmem
        rw [hat.type_eq]
        exact ⟨rfl, hat⟩
    · cases type with
      | wrRace => cases ht
      | rwRace =>
        have hrep : Reported (checkFast f accId .rwRace m.reads.table p n) .rwRace y.verFunc :=
          (checkFast_reported ha .rwRace .rwRace hr y.verFunc).2 ⟨rfl, b, y, h₁, h₂, hy, hpar, rfl⟩
        obtain ⟨r, hmem, hrt, -⟩ := hrep
        exact ⟨r, List.mem_append_right _ hmem, hrt⟩
      | wwRace =>
        obtain ⟨r, hmem, hrt, -⟩ := (checkAndUpdateFast_spec f accId ha hw hp .wwRace y.verFunc).2
          ⟨rfl, b, y, h₁, h₂, (hocc.get b).trans hy, hpar, rfl⟩
        exact ⟨r, List.mem_append_left _ hmem, hrt⟩

/-- Where the bag is not asked for, no entry is in series. -/
theorem not_inSeries_of_not_asks {alignment : Nat} (hm : m.LockedOk) (hn : n ≠ 0)
    (hfast : takesFastPath n alignment = true)
    (ha : SmallAccess p n lg) (hasks : (LockedOp.plain isRead p n alignment accId).asksForBag f m =
      false) (h₁ : p ≤ b)
    (h₂ : b < p + n) :
    inSeries f.previousAccessInParallel ((m.dictionary isRead).table.get b) = false := by
  have hpass : (LockedOp.plain isRead p n alignment accId).passes m = true := by
    simp [LockedOp.passes, hn, hfast]
  simp only [LockedOp.asksForBag, hpass, hfast, Bool.not_true, Bool.true_and, Bool.false_or,
    Bool.or_eq_false_iff, decide_eq_false_iff_not, not_not] at hasks
  obtain ⟨hg, hs⟩ := hasks
  obtain ⟨hocc, hp⟩ := allocatePage_spec (p := p) (hm.occupancy isRead) p
  obtain ⟨hw₁, hget, hline, hwl, -, -⟩ := lineMustExist_spec ha (hocc.wf (hm.wf isRead)) hp
  -- The range is one entry, that of its first byte.
  have heq := ha.get_eq hw₁ (by rw [hline]; exact hg) h₁ h₂
  rw [hget, hocc.get] at heq
  rw [heq, Pages.get_setLine_self rfl, hwl.shadow_eq]
  exact hs

/-- The races of an access on the slow path. -/
theorem checkRacesAndUpdate_races (f : Strand) (accId : Nat) (isRead : Bool)
    (hm : m.LockedOk) (p n : Nat) : ∀ r ∈ (m.checkRacesAndUpdate f accId isRead p n).2,
      r.type.isRead = isRead ∧
      RaceAt f accId r.type (m.dictionary r.type.prevIsRead).table p n r := by
  obtain ⟨found, d', hset, hocc, -⟩ := setOccupied_spec (hm.occupancy isRead) p n
  have heq := setOccupied_eq hset
  intro r hr
  simp only [checkRacesAndUpdate, heq] at hr
  cases found with
  | false => cases hr
  | true =>
    cases isRead with
    | true =>
      have hat : RaceAt f accId .wrRace m.writes.table p n r := .of_checkRace (hm.wf false) hr
      rw [hat.type_eq]
      exact ⟨rfl, hat⟩
    | false =>
      rcases List.mem_append.1 hr with hr | hr
      · have hat :=
          (RaceAt.of_checkAndUpdateWrite (hocc.wf (hm.wf false)) hocc.mapped hr).congr hocc.get
        rw [hat.type_eq]
        exact ⟨rfl, hat⟩
      · have hat : RaceAt f accId .rwRace m.reads.table p n r := .of_checkRace (hm.wf true) hr
        rw [hat.type_eq]
        exact ⟨rfl, hat⟩

/-- **The fast path**, byte by byte. -/
theorem recordMemHelper_fast {alignment : Nat} (f : Strand) (accId : Nat) (isRead : Bool)
    (hm : m.LockedOk) (hn : n ≠ 0)
    (hfast : takesFastPath n alignment = true)
    (ha : alignment ≠ 0 → ∃ lg, alignment = 2 ^ lg ∧ alignment ∣ p) :
    FastAccess f accId isRead p n m (m.recordMemHelper f accId isRead p n alignment).1
      (m.recordMemHelper f accId isRead p n alignment).2 := by
  obtain ⟨lg, hsmall⟩ := smallAccess_of_takesFastPath hfast hn ha
  refine ⟨?_, (recordMemHelper_races f accId isRead hn hfast hsmall hm).2⟩
  rw [recordMemHelper_fst]
  exact LockedOp.plainTable_fast f accId hm hsmall hn hfast

/-- **An access**, on either path. -/
theorem recordMemHelper_spec {alignment : Nat} (f : Strand) (accId : Nat) (isRead : Bool)
    (hm : m.LockedOk) (ha : alignment ≠ 0 → ∃ lg, alignment = 2 ^ lg ∧ alignment ∣ p) :
    RangeAccess f accId isRead p n m (m.recordMemHelper f accId isRead p n alignment).1
      (m.recordMemHelper f accId isRead p n alignment).2 := by
  refine ⟨?_, fun b => ?_, ?_, ?_⟩
  · rw [recordMemHelper_fst]
    exact LockedOp.run_lockedOk f LockSet.intersect hm
      (show LockedOp.Aligned (.plain isRead p n alignment accId) from ha)
  · by_cases hn : n = 0
    · exact .inl (by simp only [recordMemHelper, hn, if_true])
    · by_cases hfast : takesFastPath n alignment = true
      · have hset := (recordMemHelper_fast f accId isRead hm hn hfast ha).sets b
        split at hset
        · next h => exact .inr ⟨h.1, hset⟩
        · exact .inl hset
      · obtain ⟨hacc, -⟩ :=
          checkRacesAndUpdate_dictionary f accId (hm.wf isRead) (hm.occupancy isRead) p n
        rw [recordMemHelper, if_neg hn, if_neg hfast]
        by_cases hb : p ≤ b ∧ b < p + n
        · by_cases hocc : ∃ b, p ≤ b ∧ b < p + n ∧ (m.dictionary isRead).occupied b = false
          · rcases hacc.recorded hocc b hb.1 hb.2 with h | ⟨y, hy, -, hy'⟩
            · exact .inr ⟨hb, h⟩
            · exact .inl (hy'.trans hy.symm)
          · refine .inl (hacc.dropped (fun b h₁ h₂ => ?_) b)
            cases h : (m.dictionary isRead).occupied b with
            | true => rfl
            | false => exact absurd ⟨b, h₁, h₂, h⟩ hocc
        · exact .inl (hacc.outside b hb)
  · rw [recordMemHelper_fst]
    exact recordMem_other f accId m p n alignment (by simp)
  · by_cases hn : n = 0
    · intro r hr
      simp only [recordMemHelper, hn, if_true] at hr
      cases hr
    · by_cases hfast : takesFastPath n alignment = true
      · obtain ⟨lg, hsmall⟩ := smallAccess_of_takesFastPath hfast hn ha
        exact (recordMemHelper_races f accId isRead hn hfast hsmall hm).1
      · rw [recordMemHelper, if_neg hn, if_neg hfast]
        exact checkRacesAndUpdate_races f accId isRead hm p n

end SimpleShadowMem

end Cilksan
