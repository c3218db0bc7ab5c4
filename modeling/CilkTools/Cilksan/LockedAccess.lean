/-
Accesses under locks: the bytes whose locker lists change, and those whose
lists are looked at.

`lockersByteExact_iff` says when these are the bytes of the access: a stretch
with a parallel entry is handed on up to the end of that entry.
-/
import CilkTools.Cilksan.Intersect
import CilkTools.Cilksan.OccupancyFilter
import CilkTools.Cilksan.RangeEnds

namespace Cilksan

open UpdateIterator (PastEnd)

section

variable (f : Strand) (accId : Nat) (intersect : LockSet → LockSet → IntersectionResult)
  (LS : LockSet)

namespace SimpleShadowMem

/-- The ranges whose lockers in a dictionary an access that is not dropped looks at. -/
def lockerRanges (isRead : Bool) (m : SimpleShadowMem) (addr memSize : Nat)
    (dict : Bool) : List Chunk :=
  let m := (m.setOccupied isRead addr memSize).2
  match isRead, dict with
  | true, true => []
  | true, false => (checkDataRace f accId intersect LS .wrRace m.writes addr memSize).ranges
  | false, true => (checkDataRace f accId intersect LS .rwRace m.reads addr memSize).ranges
  | false, false =>
    (checkDataRaceAndUpdateWrite f accId intersect LS m.writes addr memSize).2.ranges

/-- The access looks at the locker list of a byte. -/
def Consults (isRead : Bool) (m : SimpleShadowMem) (addr memSize : Nat) (dict : Bool)
    (b : Nat) : Prop :=
  ¬ m.Drops isRead addr memSize ∧
  (∃ c ∈ m.lockerRanges f accId intersect LS isRead addr memSize dict,
    c.addr ≤ b ∧ b < c.addr + c.size) ∧ ((m.dictionary dict).lockerTable.get b).isSome = true

end SimpleShadowMem

/-- Only lists of bytes of the access change, and only those are looked at. -/
structure LockersByteExact (isRead : Bool) (m : SimpleShadowMem) (addr memSize : Nat) : Prop where
  changed : ∀ dict b, ¬ (addr ≤ b ∧ b < addr + memSize) →
    ((m.checkDataRacesAndUpdate f accId intersect LS isRead addr memSize).1.dictionary
      dict).lockerTable.get b = (m.dictionary dict).lockerTable.get b
  consulted : ∀ dict b, m.Consults f accId intersect LS isRead addr memSize dict b →
    addr ≤ b ∧ b < addr + memSize

/-- The last valid entry of the range is parallel, and there are lockers of
bytes between the end of the range and the end of its last cell. -/
def ReachesLockers (d : SimpleDictionary) (p e : Nat) : Prop :=
  (d.table.lastEntry p e).any f.previousAccessInParallel = true ∧
    ∃ b, e ≤ b ∧ b < nextMultiple (d.table.queryWidth (e - 1)) (e - 1) ∧
    (d.lockerTable.get b).isSome = true

/-- Unless the strand has accessed all bytes of the range before, no stretch
goes on past its end. -/
def EndsInside (isRead : Bool) (m : SimpleShadowMem) (addr memSize : Nat) : Prop :=
  (∃ b, addr ≤ b ∧ b < addr + memSize ∧ (m.dictionary isRead).occupied b = false) →
    if isRead then ¬ ReachesLockers f m.writes addr (addr + memSize)
    else ¬ PastEnd MemoryAccess.verFunc f.previousAccessInParallel m.writes.table addr
      (addr + memSize) ∧ ¬ ReachesLockers f m.reads addr (addr + memSize)

end

structure SimpleShadowMem.LockedOk (m : SimpleShadowMem) : Prop extends SimpleShadowMem.Ok m where
  lockers : ∀ isRead, (m.dictionary isRead).lockerTable.WF

variable {f : Strand} {accId : Nat} {intersect : LockSet → LockSet → IntersectionResult}
  {LS : LockSet}
variable {L : Pages (LockerList MemoryAccess)} {p e n b : Nat}

/-! ## Locker tables -/

theorem inSeries_never {α : Type u} (o : Option α) : inSeries (fun _ => false) o = true := by
  cases o <;> rfl

variable (f accId intersect LS) in
/-- Every byte of the range gets the locker. -/
theorem updateLockers_spec (hL : L.WF) (p n : Nat) : (updateLockers f accId intersect LS L p n).WF ∧
    ∀ b, (updateLockers f accId intersect LS L p n).get b =
      if p ≤ b ∧ b < p + n then some (f.lockerSetFn intersect accId LS (L.get b)) else L.get b := by
  obtain ⟨xs, L', hwalk, heq⟩ := UpdateIterator.updateRange_walk hL LockerList.key (fun _ => false)
    (f.lockerSetFn intersect accId LS) (p := p) (e := p + n) (.inr fun _ => rfl)
  have hres : updateLockers f accId intersect LS L p n = L' := by
    unfold updateLockers
    rw [Chunk.mk_eq_upTo, heq]
  rw [hres]
  refine ⟨hwalk.wf hL, fun b => ?_⟩
  split
  · next h => exact hwalk.get_replaced hL (fun _ _ _ => rfl) h.1 h.2 (.inl (inSeries_never _))
  · next h => exact hwalk.get_of_lt (by omega)

theorem checkAndUpdateLockers_fst (hL : L.WF) (prev : MemoryAccess) (p n : Nat) :
    (checkAndUpdateLockers f accId intersect LS prev L p n).1 =
    updateLockers f accId intersect LS L p n := by
  obtain ⟨xs, L', -, heq⟩ := UpdateIterator.updateRange_walk hL LockerList.key (fun _ => false)
    (f.lockerSetFn intersect accId LS) (p := p) (e := p + n) (.inr fun _ => rfl)
  unfold updateLockers checkAndUpdateLockers
  rw [Chunk.mk_eq_upTo, heq, heq]

/-- The bytes of a stretch. -/
def Stretch.chunk {β : Type u} (x : Stretch β) : Chunk := ⟨x.start, x.stop - x.start⟩

/-- The ranges of the stretches with a parallel entry. -/
def parallelChunks (f : Strand) (xs : List (Stretch MemoryAccess)) : List Chunk :=
  (xs.filter fun x => x.prev.any f.previousAccessInParallel).map Stretch.chunk

theorem parallelChunks_cons (f : Strand) (x : Stretch MemoryAccess)
    (xs : List (Stretch MemoryAccess)) : parallelChunks f (x :: xs) =
      (if x.prev.any f.previousAccessInParallel then [x.chunk] else []) ++ parallelChunks f xs := by
  unfold parallelChunks
  rw [List.filter_cons]
  split <;> rfl

variable (f accId intersect LS) in
theorem updateWriteLockers_spec (hL : L.WF) (x : Stretch MemoryAccess) (s : DataRaces) :
    (updateWriteLockers f accId intersect LS x (L, s)).1 =
    updateLockers f accId intersect LS L x.start (x.stop - x.start) ∧
      (updateWriteLockers f accId intersect LS x (L, s)).2.ranges =
        s.ranges ++ if x.prev.any f.previousAccessInParallel then [x.chunk] else [] := by
  unfold updateWriteLockers
  cases x.prev with
  | none => simp
  | some prev =>
    simp only [Option.any_some]
    split
    · exact ⟨checkAndUpdateLockers_fst hL _ _ _, rfl⟩
    · simp

theorem UpdateIterator.Walk.start_le_lastStop {β : Type u} {κ : Type v} [DecidableEq κ]
    {key : β → κ} {par : β → Bool}
    {setFn : Option β → β} {d d' : Pages β} {xs : List (Stretch β)}
    (h : UpdateIterator.Walk key par setFn e d p xs d') : p ≤ lastStop p xs := by
  induction h with
  | done _ => exact Nat.le_refl _
  | insert _ _ _ _ hins _ ih => exact Nat.le_trans (Nat.le_of_lt hins.lt) ih
  | skip _ _ _ hskip _ ih => exact Nat.le_trans (Nat.le_of_lt hskip.lt) ih

variable (f accId intersect LS) in
/-- The write lockers after the access: those of the bytes of all stretches get the new one. -/
theorem foldl_updateWriteLockers {key : MemoryAccess → Nat × Nat} {par : MemoryAccess → Bool}
    {setFn : Option MemoryAccess → MemoryAccess} {d d' : Pages MemoryAccess}
    {xs : List (Stretch MemoryAccess)}
    (h : UpdateIterator.Walk key par setFn e d p xs d') :
    ∀ {L : Pages (LockerList MemoryAccess)} (s : DataRaces), L.WF →
    ∃ L' s', xs.foldl (fun s x => updateWriteLockers f accId intersect LS x s) (L,
      s) = (L', s') ∧ L'.WF ∧ (∀ b, L'.get b =
        if p ≤ b ∧ b < lastStop p xs then some (f.lockerSetFn intersect accId LS (L.get b))
          else L.get b) ∧
      s'.ranges = s.ranges ++ parallelChunks f xs := by
  have hcons :
      ∀ {p q : Nat} {prev : Option MemoryAccess} {xs : List (Stretch MemoryAccess)}, p < q →
      q ≤ lastStop q xs → (∀ {L : Pages (LockerList MemoryAccess)} (s : DataRaces), L.WF →
        ∃ L' s', xs.foldl (fun s x => updateWriteLockers f accId intersect LS x s) (L,
          s) = (L', s') ∧ L'.WF ∧ (∀ b, L'.get b =
            if q ≤ b ∧ b < lastStop q xs then some (f.lockerSetFn intersect accId LS (L.get b))
              else L.get b) ∧
          s'.ranges = s.ranges ++ parallelChunks f xs) →
      ∀ {L : Pages (LockerList MemoryAccess)} (s : DataRaces), L.WF →
        ∃ L' s', (⟨p, prev, q⟩ :: xs).foldl (fun s x => updateWriteLockers f accId intersect LS x s)
        (L, s) = (L', s') ∧
          L'.WF ∧ (∀ b, L'.get b = if p ≤ b ∧ b < lastStop p (⟨p, prev, q⟩ :: xs) then
            some (f.lockerSetFn intersect accId LS (L.get b)) else L.get b) ∧
          s'.ranges = s.ranges ++ parallelChunks f (⟨p, prev, q⟩ :: xs) := by
    intro p q prev xs hlt hle ih L s hL
    obtain ⟨h₁, h₂⟩ := updateWriteLockers_spec f accId intersect LS hL ⟨p, prev, q⟩ s
    obtain ⟨hw, hget⟩ := updateLockers_spec f accId intersect LS hL p (q - p)
    cases hu : updateWriteLockers f accId intersect LS ⟨p, prev, q⟩ (L, s) with
    | mk L₁ s₁ =>
      rw [hu] at h₁ h₂
      simp only at h₁ h₂
      subst h₁
      obtain ⟨L', s', heq, hw', hget', hr'⟩ := ih s₁ hw
      refine ⟨L', s', by rw [List.foldl_cons, hu]; exact heq, hw', fun b => ?_, ?_⟩
      · have hpq : p + (q - p) = q := by omega
        rw [hget', hget, hpq, lastStop]
        by_cases hq : q ≤ b
        · simp only [hq, Nat.le_trans (Nat.le_of_lt hlt) hq, true_and, Nat.not_lt.2 hq,
            and_false, if_false]
        · have hbl : b < lastStop q xs := by omega
          simp only [hq, false_and, if_false, hbl, Nat.not_le.1 hq]
      · rw [hr', h₂, parallelChunks_cons, List.append_assoc]
  induction h with
  | done _ =>
    intro L s hL
    refine ⟨L, s, rfl, hL, fun b => ?_, by simp [parallelChunks]⟩
    rw [if_neg]
    simp only [lastStop]
    omega
  | insert _ _ _ _ hins hwalk ih => exact hcons hins.lt hwalk.start_le_lastStop ih
  | skip _ _ _ hskip hwalk ih => exact hcons hskip.lt hwalk.start_le_lastStop ih

/-! ## The ranges -/

theorem mem_parallelChunks {xs : List (Stretch MemoryAccess)} :
    (∃ c ∈ parallelChunks f xs, c.addr ≤ b ∧ b < c.addr + c.size) ↔
    ∃ x ∈ xs, x.prev.any f.previousAccessInParallel = true ∧ x.start ≤ b ∧ b < x.stop := by
  constructor
  · intro ⟨c, hc, h₁, h₂⟩
    obtain ⟨x, hx, rfl⟩ := List.mem_map.1 hc
    obtain ⟨hx, hpar⟩ := List.mem_filter.1 hx
    simp only [Stretch.chunk] at h₁ h₂
    exact ⟨x, hx, hpar, h₁, by omega⟩
  · intro ⟨x, hx, hpar, h₁, h₂⟩
    refine ⟨x.chunk, List.mem_map.2 ⟨x, List.mem_filter.2 ⟨hx, hpar⟩, rfl⟩, h₁, ?_⟩
    simp only [Stretch.chunk]
    omega

theorem foldl_checkLockers (type : RaceType) (xs : List (Stretch MemoryAccess)) (s : DataRaces) :
    (xs.foldl (fun s x => checkLockers f accId intersect LS type L x s) s).ranges =
    s.ranges ++ parallelChunks f xs := by
  induction xs generalizing s with
  | nil => simp [parallelChunks]
  | cons x xs ih =>
    rw [List.foldl_cons, ih, parallelChunks_cons, ← List.append_assoc]
    congr 1
    unfold checkLockers
    cases x.prev with
    | none => simp
    | some prev =>
      simp only [Option.any_some]
      split
      · rfl
      · simp

variable (f accId intersect LS) in
/-- A check looks at lockers past the range exactly if the range reaches them. -/
theorem checkDataRace_inside_iff {d : SimpleDictionary} (hw : d.table.WF)
    (type : RaceType) (p n : Nat) :
    (∀ b, (∃ c ∈ (checkDataRace f accId intersect LS type d p n).ranges, c.addr ≤ b ∧
      b < c.addr + c.size) →
      (d.lockerTable.get b).isSome = true → p ≤ b ∧ b < p + n) ↔
      ¬ ReachesLockers f d p (p + n) := by
  obtain ⟨p', xs, hle, hnone, -, hwalk, heq⟩ :=
    QueryIterator.queryRange_walk hw MemoryAccess.verFunc p (p + n)
  have hranges : (checkDataRace f accId intersect LS type d p n).ranges = parallelChunks f xs := by
    unfold checkDataRace
    rw [Chunk.mk_eq_upTo, heq, foldl_checkLockers]
    rfl
  have hpast : ∀ b, p + n ≤ b → _ :=
    fun b hb => QueryIterator.exists_past_end_iff (verFunc_par f) hle hnone hwalk hb
  simp only [hranges, mem_parallelChunks]
  constructor
  · intro hin hr
    obtain ⟨hlast, b, hb, hbn, hsome⟩ := hr
    obtain ⟨x, hx, hpar, hbx⟩ := (hpast b hb).2 ⟨hlast, hbn⟩
    have hstart := (hwalk.covers hx).lt_end
    have hlt := (hin b ⟨x, hx, hpar, by omega, hbx⟩ hsome).2
    omega
  · intro hr b hx hsome
    obtain ⟨x, hx, hpar, h₁, h₂⟩ := hx
    have hstart := (hwalk.covers hx).le
    refine ⟨by omega, Nat.not_le.1 fun hb => hr ?_⟩
    obtain ⟨hlast, hbn⟩ := (hpast b hb).1 ⟨x, hx, hpar, h₂⟩
    exact ⟨hlast, b, hb, hbn, hsome⟩

variable (f accId intersect LS) in
/-- The lockers of the bytes up to some `q` get the new one, and past the range
those are looked at. -/
theorem checkDataRaceAndUpdateWrite_spec {d : SimpleDictionary} (hw : d.table.WF)
    (hL : d.lockerTable.WF)
    (hm : d.table.Mapped p (p + n)) (hn : 0 < n) :
    ∃ q L' s', checkDataRaceAndUpdateWrite f accId intersect LS d p n =
        ({ d with table := update f accId d.table p n, lockerTable := L' }, s') ∧
        L'.WF ∧ p + n ≤ q ∧
      (p + n < q ↔ PastEnd MemoryAccess.verFunc f.previousAccessInParallel d.table p (p + n)) ∧
      (∀ b, L'.get b =
        if p ≤ b ∧ b < q then some (f.lockerSetFn intersect accId LS (d.lockerTable.get b))
          else d.lockerTable.get b) ∧
      ∀ b, ¬ (p ≤ b ∧ b < p + n) →
      ((∃ c ∈ s'.ranges, c.addr ≤ b ∧ b < c.addr + c.size) ↔ p ≤ b ∧ b < q) := by
  have hkey := verFunc_par f
  have hchunk := Chunk.mk_eq_upTo p n
  obtain ⟨xs, d', hwalk, heq⟩ :=
    UpdateIterator.updateRange_walk hw MemoryAccess.verFunc f.previousAccessInParallel
      (f.maSetFn accId) (.inl hm)
  obtain ⟨L', s', hfold, hw', hget, hranges⟩ :=
    foldl_updateWriteLockers f accId intersect LS hwalk {} hL
  have htable : update f accId d.table p n = d' := by
    unfold update
    rw [hchunk, heq]
  have hres : checkDataRaceAndUpdateWrite f accId intersect LS d p n =
      ({ d with table := d', lockerTable := L' }, s') := by
    unfold checkDataRaceAndUpdateWrite
    rw [hchunk, heq, hfold]
  refine ⟨lastStop p xs, L', s', htable ▸ hres, hw', hwalk.le_lastStop,
    (hwalk.past_end_iff hw hm hkey (by omega)).1, hget, fun b hb => ?_⟩
  rw [show s'.ranges = parallelChunks f xs from hranges, mem_parallelChunks]
  have hser : ∀ x : Stretch MemoryAccess,
      x.prev.any f.previousAccessInParallel = true ↔
      inSeries f.previousAccessInParallel x.prev = false := by
    intro x
    cases x.prev with
    | none => simp [inSeries]
    | some y => simp [inSeries]
  constructor
  · intro h
    obtain ⟨x, hx, hpar, h₁, h₂⟩ := h
    have hstart := (hwalk.covers hw hkey hx).le
    exact ⟨by omega, (hwalk.exists_past_end_iff (by omega) (by omega)).1
      ⟨x, hx, (hser x).1 hpar, h₂⟩⟩
  · intro h
    obtain ⟨h₁, h₂⟩ := h
    obtain ⟨x, hx, hpar, hbx⟩ := (hwalk.exists_past_end_iff (by omega) (by omega)).2 h₂
    have hstart := (hwalk.covers hw hkey hx).lt_end
    exact ⟨x, hx, (hser x).2 hpar, by omega, hbx⟩

/-! ## Accesses -/

theorem UpdateIterator.PastEnd.congr {β : Type u} {κ : Type v} [DecidableEq κ] {key : β → κ}
    {par : β → Bool} {d d' : Pages β}
    (hl : ∀ b, d'.lineAt b = d.lineAt b) : PastEnd key par d' p e ↔ PastEnd key par d p e := by
  unfold PastEnd
  simp only [hl, Replaced.congr hl]

variable {m : SimpleShadowMem} {isRead : Bool} {addr memSize : Nat}

theorem LockersByteExact.of_drops (hm : m.LockedOk) (hd : m.Drops isRead addr memSize) :
    LockersByteExact f accId intersect LS isRead m addr memSize := by
  refine ⟨fun dict b _ => ?_, fun dict b hc => absurd hd hc.1⟩
  obtain ⟨found, d', hset, hocc, -⟩ := setOccupied_spec (hm.occupancy isRead) addr memSize
  have heq := SimpleShadowMem.setOccupied_eq hset
  rw [SimpleShadowMem.Drops, heq] at hd
  have hfound : found = false := hd
  subst hfound
  simp only [SimpleShadowMem.checkDataRacesAndUpdate, heq]
  cases isRead <;> cases dict
  · exact congrArg (fun L => Pages.get L b) hocc.lockers
  · rfl
  · rfl
  · exact congrArg (fun L => Pages.get L b) hocc.lockers

theorem lockersByteExact_read_iff (hm : m.LockedOk) (hd : ¬ m.Drops true addr memSize) :
    LockersByteExact f accId intersect LS true m addr memSize ↔
    ¬ ReachesLockers f m.writes addr (addr + memSize) := by
  obtain ⟨found, d', hset, hocc, -⟩ := setOccupied_spec (hm.occupancy true) addr memSize
  have heq := SimpleShadowMem.setOccupied_eq hset
  have hfound : found = true := by
    rw [SimpleShadowMem.Drops, heq] at hd
    exact Bool.eq_true_of_not_eq_false hd
  subst hfound
  rw [← checkDataRace_inside_iff f accId intersect LS
    (show m.writes.table.WF from hm.wf false) .wrRace]
  have hranges : m.lockerRanges f accId intersect LS true addr memSize false =
      (checkDataRace f accId intersect LS .wrRace m.writes addr memSize).ranges := by
    simp only [SimpleShadowMem.lockerRanges, heq]
    rfl
  constructor
  · intro h b hc hsome
    exact h.consulted false b ⟨hd, by rw [hranges]; exact hc, hsome⟩
  · intro h
    refine ⟨fun dict b hb => ?_, fun dict b hc => ?_⟩
    · cases dict with
      | false =>
        simp only [SimpleShadowMem.checkDataRacesAndUpdate, heq]
        rfl
      | true =>
        have hL : d'.lockerTable.WF := hocc.lockers ▸ hm.lockers true
        have hres :
            ((m.checkDataRacesAndUpdate f accId intersect LS true addr memSize).1.dictionary
              true).lockerTable =
            updateLockers f accId intersect LS d'.lockerTable addr memSize := by
          simp only [SimpleShadowMem.checkDataRacesAndUpdate, heq]
          rfl
        rw [hres, (updateLockers_spec f accId intersect LS hL addr memSize).2,
          if_neg hb, hocc.lockers]
    · obtain ⟨-, hc, hsome⟩ := hc
      cases dict with
      | false => exact h b (hranges ▸ hc) hsome
      | true =>
        obtain ⟨c, hc, -⟩ := hc
        cases hc

theorem lockersByteExact_write_iff (hm : m.LockedOk) (hd : ¬ m.Drops false addr memSize) :
    LockersByteExact f accId intersect LS false m addr memSize ↔
      ¬ PastEnd MemoryAccess.verFunc f.previousAccessInParallel m.writes.table addr
      (addr + memSize) ∧
        ¬ ReachesLockers f m.reads addr (addr + memSize) := by
  obtain ⟨found, d', hset, hocc, hnew⟩ := setOccupied_spec (hm.occupancy false) addr memSize
  have heq := SimpleShadowMem.setOccupied_eq hset
  have hfound : found = true := by
    rw [SimpleShadowMem.Drops, heq] at hd
    exact Bool.eq_true_of_not_eq_false hd
  subst hfound
  obtain ⟨c, h₁, h₂, -⟩ := hnew.1 rfl
  have hL : d'.lockerTable.WF := hocc.lockers ▸ hm.lockers false
  obtain ⟨q, L', s', hcheck, -, hq, hpast, hget, hlooks⟩ :=
    checkDataRaceAndUpdateWrite_spec f accId intersect LS
      (hocc.wf (hm.wf false)) hL hocc.mapped (by omega)
  have hsame : PastEnd MemoryAccess.verFunc f.previousAccessInParallel d'.table addr
      (addr + memSize) ↔
      PastEnd MemoryAccess.verFunc f.previousAccessInParallel m.writes.table addr
      (addr + memSize) :=
    UpdateIterator.PastEnd.congr hocc.lines
  rw [hsame] at hpast
  rw [← checkDataRace_inside_iff f accId intersect LS
    (show m.reads.table.WF from hm.wf true) .rwRace, ← hpast]
  have hwrites :
      ∀ b, ((m.checkDataRacesAndUpdate f accId intersect LS false addr memSize).1.dictionary
        false).lockerTable.get b =
      if addr ≤ b ∧ b < q then some (f.lockerSetFn intersect accId LS (m.writes.lockerTable.get b))
      else m.writes.lockerTable.get b := by
    intro b
    have hres :
        (m.checkDataRacesAndUpdate f accId intersect LS false addr memSize).1.dictionary false =
        (checkDataRaceAndUpdateWrite f accId intersect LS d' addr memSize).1 := by
      simp only [SimpleShadowMem.checkDataRacesAndUpdate, heq]
      rfl
    rw [hres, hcheck]
    exact hocc.lockers ▸ hget b
  have hranges : m.lockerRanges f accId intersect LS false addr memSize false =
      s'.ranges := by
    simp only [SimpleShadowMem.lockerRanges, heq]
    exact congrArg (fun r => r.2.ranges) hcheck
  have hranges' : m.lockerRanges f accId intersect LS false addr memSize true =
      (checkDataRace f accId intersect LS .rwRace m.reads addr memSize).ranges := by
    simp only [SimpleShadowMem.lockerRanges, heq]
    rfl
  constructor
  · intro h
    refine ⟨fun hlt => ?_, fun b hc hsome => h.consulted true b
      ⟨hd, by rw [hranges']; exact hc, hsome⟩⟩
    -- The list of the first byte past the range is made, so that it was there and was looked at.
    have hchanged := h.changed false (addr + memSize) (by omega)
    rw [hwrites, if_pos ⟨by omega, hlt⟩] at hchanged
    have hin := (h.consulted false (addr + memSize) ⟨hd, ?_, by rw [← hchanged]; rfl⟩).2
    · omega
    · rw [hranges]
      exact (hlooks _ (by omega)).2 ⟨by omega, hlt⟩
  · intro h
    obtain ⟨hno, h⟩ := h
    refine ⟨fun dict b hb => ?_, fun dict b hc => ?_⟩
    · cases dict with
      | false =>
        rw [hwrites, if_neg (by omega)]
        rfl
      | true =>
        simp only [SimpleShadowMem.checkDataRacesAndUpdate, heq]
        rfl
    · obtain ⟨-, hc, hsome⟩ := hc
      cases dict with
      | true => exact h b (hranges' ▸ hc) hsome
      | false =>
        refine Classical.byContradiction fun hb => ?_
        rw [hranges] at hc
        have hbq := (hlooks b hb).1 hc
        omega

/-- **Accesses under locks**: only locker lists of the bytes of an access change,
and only those are looked at, exactly when no stretch with a parallel entry
goes on past the end of the range. -/
theorem lockersByteExact_iff (f : Strand) (accId : Nat)
    (intersect : LockSet → LockSet → IntersectionResult) (LS : LockSet)
    (isRead : Bool) {m : SimpleShadowMem} (hm : m.LockedOk) (addr memSize : Nat) :
    LockersByteExact f accId intersect LS isRead m addr memSize ↔
    EndsInside f isRead m addr memSize := by
  have hdrops :=
    (SimpleShadowMem.checkRacesAndUpdate_dictionary f accId (hm.wf isRead)
      (hm.occupancy isRead) addr memSize).2
  by_cases hd : m.Drops isRead addr memSize
  · exact iff_of_true (.of_drops hm hd) fun hnew => absurd hnew (hdrops.1 hd)
  · have hnew := Classical.not_not.1 (mt hdrops.2 hd)
    have hends : EndsInside f isRead m addr memSize ↔ _ := ⟨fun h => h hnew, fun h _ => h⟩
    rw [hends]
    cases isRead with
    | true => exact lockersByteExact_read_iff hm hd
    | false => exact lockersByteExact_write_iff hm hd

/-- Bytes 8 to 15 were written by a task that is parallel, all at once. -/
def coarseWrite : SimpleShadowMem where
  writes := { table := .single {
    lgGrainsize := 3
    numNonNullEls := 1
    data := some ([none, some ⟨1, 0, 10⟩] ++ List.replicate 62 none) } }

theorem coarseWrite_ok : coarseWrite.LockedOk where
  wf isRead := by
    cases isRead with
    | true => exact nofun
    | false => exact Pages.single_wf ⟨by decide, fun ds h => by cases h; rfl, by decide +kernel⟩
  occupancy isRead := .of_not_occupied fun b => by cases isRead <;> exact BitVec.getLsbD_zero
  lockers isRead := by cases isRead <;> exact nofun

def secondTask : Strand := { func := 2, version := 0, inParallel := fun func _ => func == 1 }

/-- All eight bytes are written, under lock 7. -/
theorem lockersByteExact_iff_whole :
    LockersByteExact secondTask 20 LockSet.intersect ⟨[7]⟩ false coarseWrite 8 8 ↔
    EndsInside secondTask false coarseWrite 8 8 :=
  lockersByteExact_iff secondTask 20 LockSet.intersect ⟨[7]⟩ false coarseWrite_ok 8 8

/-- Only the first four are, and byte 12 gets a locker. -/
theorem not_lockersByteExact :
    ¬ LockersByteExact secondTask 20 LockSet.intersect ⟨[7]⟩ false coarseWrite 8 4 := by
  intro h
  have h12 := h.changed false 12 (by decide)
  have hset :
      ((coarseWrite.checkDataRacesAndUpdate secondTask 20 LockSet.intersect
        ⟨[7]⟩ false 8 4).1.dictionary
      false).lockerTable.get 12 = some [⟨⟨2, 0, 20⟩, ⟨[7]⟩⟩] := by decide +kernel
  rw [hset] at h12
  cases h12

end Cilksan
