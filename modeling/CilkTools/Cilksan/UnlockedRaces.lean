/-
Accesses under locks that race with one without: an entry that is parallel,
with no locker list at its byte.

A check looks for lists where the stretch of such an entry has them, so that a
missing list is noticed at the first byte of a line in use, or not at all. An
update notices it at the first byte of a stretch. `racesWithUnlocked_of_noticed`
says when that is enough for a report.
-/
import CilkTools.Cilksan.LockedRuns

namespace Cilksan

/-! ## Stretches of a query -/

namespace QueryIterator

section

variable {β : Type u} {κ : Type v} [DecidableEq κ] {key : β → κ} {d : Pages β} {p p' e s b : Nat}
  {xs : List (Stretch β)}

/-- Byte `b` is in the stretch that starts at `s`, where an entry is that
differs from the last one before it. -/
structure InStretch (key : β → κ) (d : Pages β) (p e s b : Nat) : Prop where
  le : p ≤ s
  lt_end : s < e
  valid : (d.get s).isSome = true
  starts : Line.goesOn key (d.lastEntry p s) (d.get s) = false
  start_le : s ≤ b
  goes : ∀ c, s ≤ c → c ≤ b → c < e → Line.goesOn key (d.get s) (d.get c) = true
  last : b < e ∨ b < nextMultiple (d.queryWidth (e - 1)) (e - 1)

theorem goesOn_congr {x y : β} (h : key x = key y) (o : Option β) :
    Line.goesOn key (some x) o = Line.goesOn key (some y) o := by
  cases o with
  | none => rfl
  | some z => simp only [Line.goesOn, Option.any_some, h]

/-- A walk goes on where the last entry before differs. -/
theorem Walk.starts_lastEntry {q : Nat} (h : Walk key d e q xs) (hp : p ≤ q)
    (hnone : d.get q = none → d.lastEntry p q = none)
    (hstart : (d.get q).isSome = true → Line.goesOn key (d.lastEntry p q) (d.get q) = false) :
    ∀ x ∈ xs, (d.get x.start).isSome = true →
    Line.goesOn key (d.lastEntry p x.start) (d.get x.start) = false := by
  induction h with
  | done _ => exact fun x hx => absurd hx List.not_mem_nil
  | @step q xs r hq hu hpass hwalk ih =>
    intro x hx
    rcases List.mem_cons.1 hx with rfl | hx
    · exact hstart
    · have hlt := hpass.lt
      by_cases hr : r < e
      · have hstop := hpass.stops hr
        obtain ⟨z, hz⟩ : ∃ z, d.get r = some z := by
          cases hz : d.get r with
          | none => rw [hz] at hstop; cases hstop
          | some z => exact ⟨z, rfl⟩
        refine ih (by omega) (fun hn => by rw [hz] at hn; cases hn) (fun _ => ?_) x hx
        rcases d.lastEntry_spec p r with ⟨hl, -⟩ | ⟨a, y, hl, h₁, h₂, hy, hall⟩
        · rw [hl, hz]
          rfl
        · by_cases ha : q ≤ a
          · have hgo := hpass.goes a ha h₂ (by omega)
            rw [hy] at hgo
            cases hv : d.get q with
            | none => rw [hv] at hgo; cases hgo
            | some v =>
              rw [hv] at hgo hstop
              simp only [Line.goesOn, Option.any_some, decide_eq_true_eq] at hgo
              rw [hl, ← goesOn_congr hgo]
              exact hstop
          · have hl' := hnone (hall q (by omega) hlt)
            rcases d.lastEntry_spec p q with ⟨-, hn⟩ | ⟨a', y', hs, -⟩
            · rw [hn a h₁ (by omega)] at hy
              cases hy
            · rw [hl'] at hs
              cases hs
      · cases hwalk with
        | done _ => cases hx
        | step _ hlt _ _ _ => omega

/-- The stretches with an entry. -/
theorem inStretch_iff (hle : p ≤ p') (hnone : ∀ b, p ≤ b → b < p' → b < e → d.used b = false)
    (h : Walk key d e p' xs) :
    (∃ x ∈ xs, x.start = s ∧ (d.get s).isSome = true ∧ s ≤ b ∧ b < x.stop) ↔
    InStretch key d p e s b := by
  have hempty : ∀ c, p ≤ c → c < p' → c < e → d.get c = none := fun c h₁ h₂ h₃ => by
    cases hc : d.get c with
    | none => rfl
    | some y =>
      have hu := hnone c h₁ h₂ h₃
      rw [used_of_get hc] at hu
      cases hu
  constructor
  · intro ⟨x, hx, hs, hvalid, hsb, hbx⟩
    subst hs
    obtain ⟨h₁, h₂, -, -, h₅⟩ := h.covers hx
    have hlast : d.lastEntry p p' = none := by
      rcases d.lastEntry_spec p p' with ⟨hl, -⟩ | ⟨a, z, -, h₃, h₄, h₆, -⟩
      · exact hl
      · rw [hempty a h₃ h₄ (by omega)] at h₆
        cases h₆
    have hstarts := h.starts_lastEntry hle (fun _ => hlast) (fun hv => by
      obtain ⟨z, hz⟩ := Option.isSome_iff_exists.1 hv
      rw [hlast, hz]
      rfl) x hx hvalid
    refine ⟨by omega, h₂, hvalid, hstarts, hsb, fun c hc hcb => h₅.goes c hc (by omega), ?_⟩
    by_cases hb : b < e
    · exact .inl hb
    · exact .inr (h₅.last (by omega) ▸ hbx)
  · intro hin
    have hp : p' ≤ s := by
      refine Nat.not_lt.1 fun hlt => ?_
      have hv := hin.valid
      rw [hempty s hin.le hlt hin.lt_end] at hv
      cases hv
    obtain ⟨x, hx, hxs, hsx⟩ := h.exists_mem hp hin.lt_end
    obtain ⟨h₁, h₂, -, h₄, h₅⟩ := h.covers hx
    obtain ⟨z, hz⟩ := Option.isSome_iff_exists.1 hin.valid
    have hse := hin.lt_end
    have heq : x.start = s := by
      refine Nat.le_antisymm hxs (Nat.not_lt.1 fun hlt => ?_)
      have hgo := h₅.goes s hxs hsx hin.lt_end
      have hstarts := hin.starts
      rw [hz] at hgo hstarts
      cases hv : d.get x.start with
      | none => rw [hv] at hgo; cases hgo
      | some v =>
        rw [hv] at hgo
        rcases d.lastEntry_spec p s with ⟨-, hall⟩ | ⟨a, y, hl, h₆, h₇, hy, hall⟩
        · rw [hall x.start (by omega) hlt] at hv
          cases hv
        · have hxa : x.start ≤ a := Nat.not_lt.1 fun hax => by
            rw [hall x.start hax hlt] at hv
            cases hv
          have hgoa := h₅.goes a hxa (by omega) (by omega)
          rw [hv, hy] at hgoa
          simp only [Line.goesOn, Option.any_some, decide_eq_true_eq] at hgoa
          rw [hl, ← goesOn_congr hgoa, hgo] at hstarts
          cases hstarts
    refine ⟨x, hx, heq, hin.valid, hin.start_le, Nat.not_le.1 fun hxb => ?_⟩
    by_cases hxe : x.stop < e
    · have hstop := h₅.stops hxe
      rw [heq, hin.goes x.stop (by omega) hxb hxe] at hstop
      cases hstop
    · have hlast := h₅.last (by omega)
      have := hin.last
      omega

end

end QueryIterator

/-! ## What is noticed -/

section

variable (f : Strand) (intersect : LockSet → LockSet → IntersectionResult) (LS : LockSet)

/-- A list with a locker that is parallel and shares no lock, or none at all. -/
def MissingOrRacing (LL : Option (LockerList MemoryAccess)) : Prop :=
  LL.all (dataRaceWithPreviousAccesses intersect f.previousAccessInParallel LS) = true

/-- A query that starts at `s` meets such a list at byte `b`: a missing one at
the first line in use only. -/
def NoticedAt (L : Pages (LockerList MemoryAccess)) (s b : Nat) : Prop :=
  MissingOrRacing f intersect LS (L.get b) ∧
    (L.get b = none → L.used b = true ∧ ∀ c, s ≤ c → c < b → L.used c = false)

/-- The check of a dictionary notices a list in a stretch with a parallel entry. -/
def CheckNotices (d : SimpleDictionary) (p e : Nat) : Prop :=
  ∃ s b, QueryIterator.InStretch MemoryAccess.verFunc d.table p e s b ∧
    (d.table.get s).any f.previousAccessInParallel = true ∧
    NoticedAt f intersect LS d.lockerTable s b

end

variable {f : Strand} {accId : Nat} {intersect : LockSet → LockSet → IntersectionResult}
  {LS : LockSet}
variable {L : Pages (LockerList MemoryAccess)} {p n e s t b : Nat}

theorem dataRace_eq_of_key {LL LL' : LockerList MemoryAccess} (h : LL.key = LL'.key) :
    dataRaceWithPreviousAccesses intersect f.previousAccessInParallel LS LL =
      dataRaceWithPreviousAccesses intersect f.previousAccessInParallel LS LL' := by
  have hany :
      ∀ LL : LockerList MemoryAccess, dataRaceWithPreviousAccesses intersect
      f.previousAccessInParallel LS LL =
      LL.key.any fun k => f.inParallel k.1.1 k.1.2 && intersect k.2 LS == .EMPTY := by
    intro LL
    rw [LockerList.key, List.any_map]
    rfl
  rw [hany, hany, h]

theorem dataRaceWith_ne_nil {type : RaceType} {prev : MemoryAccess}
    {y : Stretch (LockerList MemoryAccess)} :
    dataRaceWith f accId intersect LS type prev y ≠ [] ↔ MissingOrRacing f intersect LS y.prev := by
  unfold dataRaceWith MissingOrRacing
  split
  · next h => simp [h]
  · next h => simp [h]

theorem flatMap_ne_nil {α : Type u} {β : Type v} {g : α → List β} {xs : List α} :
    xs.flatMap g ≠ [] ↔ ∃ x ∈ xs, g x ≠ [] := by
  simp [List.flatMap_eq_nil_iff]

/-- The lists that a query meets. -/
theorem queryLockers_ne_nil_iff (hL : L.WF) (type : RaceType) (prev : MemoryAccess) (s t : Nat) :
    QueryIterator.queryRange LockerList.key
    (fun y races => races ++ dataRaceWith f accId intersect LS type prev y) L
      (.upTo s t) [] ≠ [] ↔ ∃ b, s ≤ b ∧ b < t ∧ NoticedAt f intersect LS L s b := by
  obtain ⟨p', ys, hle, hnone, hused, hwalk, heq⟩ :=
    QueryIterator.queryRange_walk hL LockerList.key s t
  rw [heq, foldl_append, List.nil_append, flatMap_ne_nil]
  simp only [dataRaceWith_ne_nil]
  constructor
  · intro ⟨y, hy, hm⟩
    obtain ⟨h₁, h₂, h₃, h₄, -⟩ := hwalk.covers hy
    rw [h₄] at hm
    refine ⟨y.start, by omega, h₂, hm, fun hn => ⟨h₃, fun c hc hcy => ?_⟩⟩
    rcases hwalk.start hy with hs | hs
    · exact hnone c hc (by omega) (by omega)
    · rw [hn] at hs
      cases hs
  · intro ⟨b, hsb, hbt, hm, hfirst⟩
    cases hb : L.get b with
    | some LL =>
      obtain ⟨y, hy, LL', hprev, hkey⟩ :=
        (QueryIterator.exists_visited_iff hle hnone hwalk LL.key).2 ⟨b, hsb, hbt, LL, hb, rfl⟩
      refine ⟨y, hy, ?_⟩
      rw [hb] at hm
      rw [hprev]
      unfold MissingOrRacing at hm ⊢
      rw [Option.all_some, dataRace_eq_of_key hkey]
      exact hm
    | none =>
      obtain ⟨hub, hbefore⟩ := hfirst hb
      have hpb : p' ≤ b := Nat.not_lt.1 fun hlt => by
        rw [hnone b hsb hlt hbt] at hub
        cases hub
      have heq : b = p' := by
        refine Nat.le_antisymm (Nat.not_lt.1 fun hlt => ?_) hpb
        have hup := hused (by omega)
        rw [hbefore p' hle hlt] at hup
        cases hup
      subst heq
      cases hwalk with
      | done h => omega
      | step q h₁ h₂ h₃ h₄ => exact ⟨_, List.mem_cons_self, hm⟩

theorem foldl_checkLockers_races (type : RaceType) (xs : List (Stretch MemoryAccess))
    (s : DataRaces) :
    (xs.foldl (fun s x => checkLockers f accId intersect LS type L x s) s).races ≠ [] ↔
      s.races ≠ [] ∨ ∃ x ∈ xs, ∃ prev, x.prev = some prev ∧ f.previousAccessInParallel prev = true ∧
        QueryIterator.queryRange LockerList.key
        (fun y races => races ++ dataRaceWith f accId intersect LS type prev y) L
          (.upTo x.start x.stop) [] ≠ [] := by
  induction xs generalizing s with
  | nil => simp
  | cons x xs ih =>
    rw [List.foldl_cons, ih, List.exists_mem_cons_iff, ← or_assoc]
    refine or_congr_left ?_
    unfold checkLockers
    cases hx : x.prev with
    | none => simp
    | some prev =>
      simp only
      split
      · next hp =>
        simp only [ne_eq, List.append_eq_nil_iff, not_and_or]
        refine or_congr_right ⟨fun h => ⟨prev, rfl, hp, h⟩, fun h => ?_⟩
        obtain ⟨prev', heq, -, h⟩ := h
        cases heq
        exact h
      · next hp =>
        refine (or_iff_left fun h => ?_).symm
        obtain ⟨prev', heq, hp', -⟩ := h
        cases heq
        exact hp hp'

/-- **Checks** report exactly what they notice. -/
theorem checkDataRace_ne_nil_iff {d : SimpleDictionary} (hw : d.table.WF) (hL : d.lockerTable.WF)
    (f : Strand) (accId : Nat)
    (intersect : LockSet → LockSet → IntersectionResult) (LS : LockSet)
    (type : RaceType) (p n : Nat) :
    (checkDataRace f accId intersect LS type d p n).races ≠ [] ↔
    CheckNotices f intersect LS d p (p + n) := by
  obtain ⟨p', xs, hle, hnone, -, hwalk, heq⟩ :=
    QueryIterator.queryRange_walk hw MemoryAccess.verFunc p (p + n)
  unfold checkDataRace
  rw [Chunk.mk_eq_upTo, heq, foldl_checkLockers_races]
  simp only [queryLockers_ne_nil_iff hL]
  constructor
  · intro h
    obtain ⟨x, hx, prev, hprev, hpar, b, h₁, h₂, hb⟩ := h.resolve_left fun hn => hn rfl
    have hget := (hwalk.covers hx).prev.symm.trans hprev
    refine ⟨x.start, b, (QueryIterator.inStretch_iff hle hnone hwalk).1
      ⟨x, hx, rfl, by rw [hget]; rfl, h₁, h₂⟩, ?_, hb⟩
    rw [hget, Option.any_some]
    exact hpar
  · intro h
    obtain ⟨s, b, hin, hpar, hb⟩ := h
    obtain ⟨x, hx, rfl, -, h₁, h₂⟩ := (QueryIterator.inStretch_iff hle hnone hwalk).2 hin
    obtain ⟨prev, hget, hpar⟩ := (Option.any_eq_true _ _).1 hpar
    exact .inr ⟨x, hx, prev, (hwalk.covers hx).prev.trans hget, hpar, b, h₁, h₂, hb⟩

/-! ## Stretches of an update -/

namespace UpdateIterator

section

variable {β : Type u} {κ : Type v} [DecidableEq κ] {key : β → κ} {par : β → Bool}
  {setFn : Option β → β}
variable {d d' : Pages β} {p e s b : Nat} {xs : List (Stretch β)}

/-- A stretch of kept entries starts at `s`. -/
structure KeptFrom (key : β → κ) (par : β → Bool) (d : Pages β) (p e s : Nat) : Prop where
  le : p ≤ s
  lt_end : s < e
  kept : ¬ Replaced key par d p e s
  starts : s = p ∨ Replaced key par d p e (s - 1) ∨ sameEntry key (d.get (s - 1)) (d.get s) = false

theorem sameEntry_congr {x y z : Option β} (h : sameEntry key x y = true) :
    sameEntry key x z = sameEntry key y z := by
  cases y with
  | none => cases h
  | some y =>
    cases x with
    | none => cases h
    | some x =>
      simp only [sameEntry, Option.any_some, decide_eq_true_eq] at h ⊢
      rw [h]

theorem Walk.le_start (h : Walk key par setFn e d p xs d') {x : Stretch β} (hx : x ∈ xs) :
    p ≤ x.start := by
  induction h with
  | done _ => cases hx
  | insert _ _ _ _ hins _ ih =>
    have hlt := hins.lt
    rcases List.mem_cons.1 hx with rfl | hx
    · exact Nat.le_refl _
    · exact Nat.le_trans (Nat.le_of_lt hlt) (ih hx)
  | skip _ _ _ hskip _ ih =>
    have hlt := hskip.lt
    rcases List.mem_cons.1 hx with rfl | hx
    · exact Nat.le_refl _
    · exact Nat.le_trans (Nat.le_of_lt hlt) (ih hx)

/-- Where a stretch starts that is passed. -/
theorem Walk.starts (h : Walk key par setFn e d p xs d') (hw : d.WF)
    (hkey : ∀ x y, key x = key y → par x = par y)
    {x : Stretch β} (hx : x ∈ xs) : x.start = p ∨ Replaced key par d p e (x.start - 1) ∨
      sameEntry key (d.get (x.start - 1)) (d.get x.start) = false := by
  induction h with
  | done _ => cases hx
  | @insert d p xs d'' d₁ q hp hs hins hwalk ih =>
    have hlt := hins.lt
    rcases List.mem_cons.1 hx with rfl | hx
    · exact .inl rfl
    · right
      have hle := hwalk.le_start hx
      by_cases hq : x.start = q
      · exact .inl (hins.replaced hkey hs (by omega) (by omega))
      · rcases ih hins.wf hx with heq | hr | hd
        · exact absurd heq hq
        · exact .inl ((hins.replaced_iff hw hkey hs (by omega)).2 hr)
        · rw [hins.get, hins.get, if_neg (by omega), if_neg (by omega)] at hd
          exact .inr hd
  | @skip d p xs d'' q hp hs hskip hwalk ih =>
    have hlt := hskip.lt
    rcases List.mem_cons.1 hx with rfl | hx
    · exact .inl rfl
    · right
      have hle := hwalk.le_start hx
      have hxe := (hwalk.covers hw hkey hx).lt_end
      rcases ih hw hx with heq | hr | hd
      · right
        rw [heq, ← sameEntry_congr (hskip.same (q - 1) (by omega) (by omega) (by omega))]
        exact hskip.stops (by omega)
      · exact .inl ((hskip.replaced_iff hkey hs).2 hr)
      · exact .inr hd

theorem keptFrom_iff (h : Walk key par setFn e d p xs d') (hw : d.WF)
    (hkey : ∀ x y, key x = key y → par x = par y) :
    (∃ x ∈ xs, x.start = s ∧ inSeries par x.prev = false) ↔ KeptFrom key par d p e s := by
  constructor
  · intro ⟨x, hx, hs, hser⟩
    subst hs
    have hc := h.covers hw hkey hx
    exact ⟨hc.le, hc.lt_end, (hc.kept hser x.start (Nat.le_refl _) hc.lt hc.lt_end).1,
      h.starts hw hkey hx⟩
  · intro hs
    obtain ⟨x, hx, hxs, hsx⟩ := h.exists_mem hs.le hs.lt_end
    have hc := h.covers hw hkey hx
    have hle := hc.le
    have hse := hs.lt_end
    cases hser : inSeries par x.prev with
    | true => exact absurd ((hc.replaced hser).2 s hxs hsx) hs.kept
    | false =>
      refine ⟨x, hx, Nat.le_antisymm hxs (Nat.not_lt.1 fun hlt => ?_), hser⟩
      obtain ⟨hk, hsame⟩ := hc.kept hser (s - 1) (by omega) (by omega) (by omega)
      rcases hs.starts with heq | hr | hd
      · omega
      · exact hk hr
      · rw [← sameEntry_congr hsame, (hc.kept hser s hxs hsx hse).2] at hd
        cases hd

/-- An insertion stops at an entry. -/
theorem Walk.start_isSome (h : Walk key par setFn e d p xs d') (hpar : ∀ x, par x = false)
    {x : Stretch β} (hx : x ∈ xs) : x.start = p ∨ (d.get x.start).isSome = true := by
  induction h with
  | done _ => cases hx
  | @insert d p xs d'' d₁ q hp hs hins hwalk ih =>
    have hlt := hins.lt
    rcases List.mem_cons.1 hx with rfl | hx
    · exact .inl rfl
    · right
      have hle := hwalk.le_start hx
      have hget : d₁.get x.start = d.get x.start := by
        rw [hins.get, if_neg (by omega)]
      rcases ih hx with heq | hsome
      · by_cases hq : q < e
        · have hstop := hins.stops hq
          rw [heq]
          cases hv : d.get q with
          | none => rw [hv] at hstop; cases hstop
          | some y => rfl
        · obtain ⟨rfl, -⟩ := hwalk.eq_nil (by omega)
          cases hx
      · rw [← hget]
        exact hsome
  | @skip d p xs d'' q hp hs hskip hwalk ih =>
    cases hv : d.get p with
    | none => rw [hv] at hs; cases hs
    | some y =>
      rw [hv] at hs
      simp [inSeries, hpar y] at hs

end

end UpdateIterator

section

variable (f : Strand) (intersect : LockSet → LockSet → IntersectionResult) (LS : LockSet)

/-- The update of the write dictionary notices a list at the start of a stretch of parallel entries.
-/
def UpdateNotices (d : SimpleDictionary) (p e : Nat) : Prop :=
  ∃ s, UpdateIterator.KeptFrom MemoryAccess.verFunc f.previousAccessInParallel d.table p e s ∧
    MissingOrRacing f intersect LS (d.lockerTable.get s)

/-- It may notice one later in the stretch, or past the end of the range, that is not missing. -/
def UpdateMayNotice (d : SimpleDictionary) (p e : Nat) : Prop :=
  UpdateNotices f intersect LS d p e ∨ ∃ b, p ≤ b ∧
    (b < e →
      ¬ UpdateIterator.Replaced MemoryAccess.verFunc f.previousAccessInParallel d.table p e b) ∧
    (e ≤ b → b < nextMultiple (2 ^ (d.table.lineAt (e - 1)).lgGrainsize) (e - 1)) ∧
    (d.lockerTable.get b).isSome = true ∧ MissingOrRacing f intersect LS (d.lockerTable.get b)

end

theorem any_of_not_inSeries {o : Option MemoryAccess} :
    inSeries f.previousAccessInParallel o = false ↔ o.any f.previousAccessInParallel = true := by
  cases o <;> simp [inSeries]

variable (f accId intersect LS) in
/-- The list at the start of a range is always met; those met later are not missing. -/
theorem checkAndUpdateLockers_ne_nil (hL : L.WF) (prev : MemoryAccess) (hst : s < t) :
    (MissingOrRacing f intersect LS (L.get s) →
      (checkAndUpdateLockers f accId intersect LS prev L s (t - s)).2 ≠ []) ∧
    ((checkAndUpdateLockers f accId intersect LS prev L s (t - s)).2 ≠ [] →
      MissingOrRacing f intersect LS (L.get s) ∨
      ∃ b, s ≤ b ∧ b < t ∧ (L.get b).isSome = true ∧ MissingOrRacing f intersect LS (L.get b)) := by
  obtain ⟨ys, L', hwalk, heq⟩ := UpdateIterator.updateRange_walk hL LockerList.key (fun _ => false)
    (f.lockerSetFn intersect accId LS) (p := s) (e := t) (.inr fun _ => rfl)
  have hraces : (checkAndUpdateLockers f accId intersect LS prev L s (t - s)).2 =
      ys.flatMap (dataRaceWith f accId intersect LS .wwRace prev) := by
    unfold checkAndUpdateLockers
    rw [show (⟨s, t - s⟩ : Chunk) = .upTo s t from rfl, heq, foldl_append, List.nil_append]
  rw [hraces, flatMap_ne_nil]
  simp only [dataRaceWith_ne_nil]
  constructor
  · intro hm
    cases hwalk with
    | done h => omega
    | insert _ q => exact ⟨_, List.mem_cons_self, hm⟩
    | skip q => exact ⟨_, List.mem_cons_self, hm⟩
  · intro ⟨y, hy, hm⟩
    have hc := hwalk.covers hL (fun _ _ _ => rfl) hy
    have hprev := hc.prev
    rw [hprev] at hm
    rcases hwalk.start_isSome (fun _ => rfl) hy with hs | hs
    · rw [hs] at hm
      exact .inl hm
    · exact .inr ⟨y.start, hc.le, hc.lt_end, hs, hm⟩

variable (f accId intersect LS) in
theorem updateWriteLockers_races (hL : L.WF) (x : Stretch MemoryAccess) (hx : x.start < x.stop)
    (r : DataRaces) :
    (r.races ≠ [] ∨ x.prev.any f.previousAccessInParallel = true ∧
      MissingOrRacing f intersect LS (L.get x.start) →
      (updateWriteLockers f accId intersect LS x (L, r)).2.races ≠ []) ∧
    ((updateWriteLockers f accId intersect LS x (L, r)).2.races ≠ [] → r.races ≠ [] ∨
      x.prev.any f.previousAccessInParallel = true ∧
      (MissingOrRacing f intersect LS (L.get x.start) ∨
        ∃ b, x.start ≤ b ∧ b < x.stop ∧ (L.get b).isSome = true ∧
        MissingOrRacing f intersect LS (L.get b))) := by
  unfold updateWriteLockers
  cases x.prev with
  | none => exact ⟨fun h => h.resolve_right fun h => (by cases h.1), .inl⟩
  | some prev =>
    simp only [Option.any_some]
    split
    · next hp =>
      obtain ⟨h₁, h₂⟩ := checkAndUpdateLockers_ne_nil f accId intersect LS hL prev hx
      simp only [ne_eq, List.append_eq_nil_iff, not_and_or]
      exact ⟨fun h => h.imp_right fun h => h₁ h.2, fun h => h.imp_right fun h => ⟨hp, h₂ h⟩⟩
    · next hp => exact ⟨fun h => h.resolve_right fun h => hp h.1, .inl⟩

/-- Each stretch starts where the one before stops. -/
def Consecutive {β : Type u} : Nat → List (Stretch β) → Prop
  | _, [] => True
  | p, x :: xs => x.start = p ∧ p < x.stop ∧ Consecutive x.stop xs

theorem Consecutive.le_start {β : Type u} {xs : List (Stretch β)} (h : Consecutive p xs)
    {x : Stretch β} (hx : x ∈ xs) : p ≤ x.start := by
  induction xs generalizing p with
  | nil => cases hx
  | cons y xs ih =>
    obtain ⟨h₁, h₂, h₃⟩ := h
    rcases List.mem_cons.1 hx with rfl | hx
    · exact Nat.le_of_eq h₁.symm
    · exact Nat.le_trans (Nat.le_of_lt h₂) (ih h₃ hx)

theorem UpdateIterator.Walk.consecutive {β : Type u} {κ : Type v} [DecidableEq κ] {key : β → κ}
    {par : β → Bool}
    {setFn : Option β → β} {d d' : Pages β} {xs : List (Stretch β)}
    (h : UpdateIterator.Walk key par setFn e d p xs d') : Consecutive p xs := by
  induction h with
  | done _ => trivial
  | insert _ _ _ _ hins _ ih => exact ⟨rfl, hins.lt, ih⟩
  | skip _ _ _ hskip _ ih => exact ⟨rfl, hskip.lt, ih⟩

variable (f accId intersect LS) in
/-- The stretches do not touch each other's lists. -/
theorem foldl_updateWriteLockers_races (xs : List (Stretch MemoryAccess)) :
    ∀ {p : Nat} {L : Pages (LockerList MemoryAccess)} (r : DataRaces), L.WF → Consecutive p xs →
    (r.races ≠ [] ∨ (∃ x ∈ xs, x.prev.any f.previousAccessInParallel = true ∧
      MissingOrRacing f intersect LS (L.get x.start)) →
      (xs.foldl (fun s x => updateWriteLockers f accId intersect LS x s) (L, r)).2.races ≠ []) ∧
    ((xs.foldl (fun s x => updateWriteLockers f accId intersect LS x s) (L, r)).2.races ≠ [] →
      r.races ≠ [] ∨
      ∃ x ∈ xs, x.prev.any f.previousAccessInParallel = true ∧
      (MissingOrRacing f intersect LS (L.get x.start) ∨
        ∃ b, x.start ≤ b ∧ b < x.stop ∧ (L.get b).isSome = true ∧
        MissingOrRacing f intersect LS (L.get b))) := by
  induction xs with
  | nil =>
    intro p L r _ _
    refine ⟨fun h => h.resolve_right fun h => ?_, .inl⟩
    obtain ⟨x, hx, -⟩ := h
    cases hx
  | cons x xs ih =>
    intro p L r hL hcons
    obtain ⟨h₁, h₂, h₃⟩ := hcons
    subst h₁
    obtain ⟨hfst, -⟩ := updateWriteLockers_spec f accId intersect LS hL x r
    obtain ⟨hw, hget⟩ := updateLockers_spec f accId intersect LS hL x.start (x.stop - x.start)
    obtain ⟨hin, hout⟩ := updateWriteLockers_races f accId intersect LS hL x h₂ r
    cases hu : updateWriteLockers f accId intersect LS x (L, r) with
    | mk L₁ r₁ =>
      rw [hu] at hfst hin hout
      simp only at hfst hin hout
      subst hfst
      obtain ⟨ih₁, ih₂⟩ := ih r₁ hw h₃
      have hlater : ∀ b, x.stop ≤ b →
        (updateLockers f accId intersect LS L x.start (x.stop - x.start)).get b = L.get b :=
        fun b hb => (hget b).trans (if_neg (by omega))
      rw [List.foldl_cons, hu]
      simp only [List.exists_mem_cons_iff]
      constructor
      · intro h
        refine ih₁ ?_
        rcases h with h | h | ⟨y, hy, hpar, hm⟩
        · exact .inl (hin (.inl h))
        · exact .inl (hin (.inr h))
        · exact .inr ⟨y, hy, hpar, by rw [hlater _ (h₃.le_start hy)]; exact hm⟩
      · intro h
        rcases ih₂ h with h | ⟨y, hy, hpar, h⟩
        · rcases hout h with h | h
          · exact .inl h
          · exact .inr (.inl h)
        · have hle := h₃.le_start hy
          refine .inr (.inr ⟨y, hy, hpar, h.imp (fun hm => ?_) fun hm => ?_⟩)
          · rw [hlater _ hle] at hm
            exact hm
          · obtain ⟨b, hb₁, hb₂, hsome, hm⟩ := hm
            rw [hlater b (by omega)] at hsome hm
            exact ⟨b, hb₁, hb₂, hsome, hm⟩

/-- **Updates** report what they notice, and nothing that they cannot notice. -/
theorem checkDataRaceAndUpdateWrite_ne_nil {d : SimpleDictionary} (hw : d.table.WF)
    (hL : d.lockerTable.WF)
    (hm : d.table.Mapped p (p + n)) (f : Strand) (accId : Nat) (intersect : LockSet → LockSet →
      IntersectionResult)
    (LS : LockSet) :
    (UpdateNotices f intersect LS d p (p + n) →
      (checkDataRaceAndUpdateWrite f accId intersect LS d p n).2.races ≠ []) ∧
      ((checkDataRaceAndUpdateWrite f accId intersect LS d p n).2.races ≠ [] →
        UpdateMayNotice f intersect LS d p (p + n)) := by
  have hkey := verFunc_par f
  obtain ⟨xs, d', hwalk, heq⟩ :=
    UpdateIterator.updateRange_walk hw MemoryAccess.verFunc f.previousAccessInParallel
      (f.maSetFn accId) (.inl hm)
  have hres : (checkDataRaceAndUpdateWrite f accId intersect LS d p n).2 =
      (xs.foldl (fun s x => updateWriteLockers f accId intersect LS x s)
        (d.lockerTable, {})).2 := by
    unfold checkDataRaceAndUpdateWrite
    rw [Chunk.mk_eq_upTo, heq]
  obtain ⟨h₁, h₂⟩ := foldl_updateWriteLockers_races f accId intersect LS xs {} hL hwalk.consecutive
  rw [hres]
  constructor
  · intro ⟨s, hs, hmr⟩
    obtain ⟨x, hx, rfl, hser⟩ := (UpdateIterator.keptFrom_iff hwalk hw hkey).2 hs
    exact h₁ (.inr ⟨x, hx, any_of_not_inSeries.1 hser, hmr⟩)
  · intro hne
    obtain ⟨x, hx, hpar, h⟩ := (h₂ hne).resolve_left fun h => h rfl
    have hser := any_of_not_inSeries.2 hpar
    rcases h with hmr | ⟨b, hb₁, hb₂, hsome, hmr⟩
    · exact .inl ⟨x.start, (UpdateIterator.keptFrom_iff hwalk hw hkey).1 ⟨x, hx, rfl, hser⟩, hmr⟩
    · have hc := hwalk.covers hw hkey hx
      have hle := hc.le
      refine .inr ⟨b, by omega, fun hb => (hc.kept hser b hb₁ hb₂ hb).1, fun hb => ?_, hsome, hmr⟩
      have hlast :=
        (hwalk.exists_past_end_iff (by have := hc.lt_end; omega) hb).1 ⟨x, hx, hser, hb₂⟩
      rw [(hwalk.past_end_iff hw hm hkey (by have := hc.lt_end; omega)).2 (by omega)] at hlast
      exact hlast

/-! ## Accesses -/

section

variable (f : Strand) (intersect : LockSet → LockSet → IntersectionResult) (LS : LockSet)

/-- A dictionary that the access is checked against has a parallel entry in the
range, with no list at its byte. -/
def MeetsUnlocked (isRead : Bool) (m : SimpleShadowMem) (p e : Nat) : Prop :=
  ∃ dict b y, ChecksAgainst isRead dict ∧ p ≤ b ∧ b < e ∧ (m.dictionary dict).table.get b = some y ∧
    f.previousAccessInParallel y = true ∧ (m.dictionary dict).lockerTable.get b = none

/-- Such an access, if it is not dropped, is reported with some race. -/
def RacesWithUnlocked (accId : Nat) (isRead : Bool) (m : SimpleShadowMem)
    (addr memSize : Nat) : Prop :=
  ¬ m.Drops isRead addr memSize → MeetsUnlocked f isRead m addr (addr + memSize) →
    (m.checkDataRacesAndUpdate f accId intersect LS isRead addr memSize).2.races ≠ []

/-- It is noticed in one of the dictionaries, if the strand has not accessed all bytes of the range
before. -/
def NoticesUnlocked (isRead : Bool) (m : SimpleShadowMem) (addr memSize : Nat) : Prop :=
  (∃ b, addr ≤ b ∧ b < addr + memSize ∧ (m.dictionary isRead).occupied b = false) →
    MeetsUnlocked f isRead m addr (addr + memSize) →
      if isRead then CheckNotices f intersect LS m.writes addr (addr + memSize)
      else UpdateNotices f intersect LS m.writes addr (addr + memSize) ∨
        CheckNotices f intersect LS m.reads addr (addr + memSize)

/-- Or may be. -/
def MayNoticeUnlocked (isRead : Bool) (m : SimpleShadowMem) (addr memSize : Nat) : Prop :=
  (∃ b, addr ≤ b ∧ b < addr + memSize ∧ (m.dictionary isRead).occupied b = false) →
    MeetsUnlocked f isRead m addr (addr + memSize) →
      if isRead then CheckNotices f intersect LS m.writes addr (addr + memSize)
      else UpdateMayNotice f intersect LS m.writes addr (addr + memSize) ∨
        CheckNotices f intersect LS m.reads addr (addr + memSize)

end

variable (f intersect LS p e) in
theorem UpdateNotices.congr {d d' : SimpleDictionary}
    (hl : ∀ b, d'.table.lineAt b = d.table.lineAt b) (hL : d'.lockerTable = d.lockerTable) :
    (UpdateNotices f intersect LS d' p e ↔ UpdateNotices f intersect LS d p e) ∧
      (UpdateMayNotice f intersect LS d' p e ↔ UpdateMayNotice f intersect LS d p e) := by
  have hget : d'.table.get = d.table.get := funext fun b => by rw [Pages.get_eq, Pages.get_eq, hl]
  have hrep :
      ∀ b, UpdateIterator.Replaced MemoryAccess.verFunc f.previousAccessInParallel d'.table p e b ↔
      UpdateIterator.Replaced MemoryAccess.verFunc f.previousAccessInParallel d.table p e b :=
    fun b =>
    UpdateIterator.Replaced.congr hl
  have hkept :
      ∀ s, UpdateIterator.KeptFrom MemoryAccess.verFunc f.previousAccessInParallel d'.table p e s ↔
      UpdateIterator.KeptFrom MemoryAccess.verFunc f.previousAccessInParallel d.table p e s := by
    intro s
    constructor
    · intro ⟨h₁, h₂, h₃, h₄⟩
      rw [hrep, hget] at h₄
      exact ⟨h₁, h₂, mt (hrep s).2 h₃, h₄⟩
    · intro ⟨h₁, h₂, h₃, h₄⟩
      rw [← hrep, ← hget] at h₄
      exact ⟨h₁, h₂, mt (hrep s).1 h₃, h₄⟩
  have hnotices : UpdateNotices f intersect LS d' p e ↔ UpdateNotices f intersect LS d p e := by
    unfold UpdateNotices
    simp only [hkept, hL]
  refine ⟨hnotices, ?_⟩
  unfold UpdateMayNotice
  simp only [hnotices, hrep, hl, hL]

/-- **Unlocked accesses.** An access under locks that meets one is reported with
a race if it notices it, and only if it may notice it; for reads these are the same. -/
theorem racesWithUnlocked_of_noticed (f : Strand) (accId : Nat)
    (intersect : LockSet → LockSet → IntersectionResult)
    (LS : LockSet) (isRead : Bool) {m : SimpleShadowMem} (hm : m.LockedOk) (addr memSize : Nat) :
    (NoticesUnlocked f intersect LS isRead m addr memSize →
      RacesWithUnlocked f intersect LS accId isRead m addr memSize) ∧
      (RacesWithUnlocked f intersect LS accId isRead m addr memSize →
        MayNoticeUnlocked f intersect LS isRead m addr memSize) ∧
      (isRead = true →
        (MayNoticeUnlocked f intersect LS isRead m addr memSize ↔
          NoticesUnlocked f intersect LS isRead m addr memSize)) := by
  obtain ⟨found, d', hset, hocc, hnew⟩ := setOccupied_spec (hm.occupancy isRead) addr memSize
  have heq := SimpleShadowMem.setOccupied_eq hset
  have hdrops : ¬ m.Drops isRead addr memSize ↔ found = true := by
    rw [SimpleShadowMem.Drops, heq]
    simp
  cases isRead with
  | true =>
    have hcheck := checkDataRace_ne_nil_iff (show m.writes.table.WF from hm.wf false)
      (show m.writes.lockerTable.WF from hm.lockers false) f accId intersect LS .wrRace addr memSize
    have hraces :
        found = true → (m.checkDataRacesAndUpdate f accId intersect LS true addr memSize).2.races =
        (checkDataRace f accId intersect LS .wrRace m.writes addr memSize).races := fun hf => by
      subst hf
      simp only [SimpleShadowMem.checkDataRacesAndUpdate, heq]
      rfl
    refine ⟨fun h hd hmeets => ?_, fun h hn hmeets => ?_, fun _ => Iff.rfl⟩
    · have hf := hdrops.1 hd
      rw [hraces hf, hcheck]
      exact h (hnew.1 hf) hmeets
    · have hf := hnew.2 hn
      have hne := h (hdrops.2 hf) hmeets
      rw [hraces hf, hcheck] at hne
      exact hne
  | false =>
    have hcheck := checkDataRace_ne_nil_iff (show m.reads.table.WF from hm.wf true)
      (show m.reads.lockerTable.WF from hm.lockers true) f accId intersect LS .rwRace addr memSize
    obtain ⟨hupdate, hupdate'⟩ :=
      checkDataRaceAndUpdateWrite_ne_nil (hocc.wf (hm.wf false)) (hocc.lockers ▸ hm.lockers false)
        hocc.mapped f accId intersect LS
    obtain ⟨hcongr, hcongr'⟩ :=
      UpdateNotices.congr f intersect LS addr (addr + memSize) hocc.lines hocc.lockers
    rw [hcongr] at hupdate
    rw [hcongr'] at hupdate'
    have hraces :
        found = true → (m.checkDataRacesAndUpdate f accId intersect LS false addr memSize).2.races =
        (checkDataRaceAndUpdateWrite f accId intersect LS d' addr memSize).2.races ++
          (checkDataRace f accId intersect LS .rwRace m.reads addr memSize).races := fun hf => by
      subst hf
      simp only [SimpleShadowMem.checkDataRacesAndUpdate, heq]
      rfl
    refine ⟨fun h hd hmeets => ?_, fun h hn hmeets => ?_, fun hr => Bool.noConfusion hr⟩
    · have hf := hdrops.1 hd
      rw [hraces hf, ne_eq, List.append_eq_nil_iff, not_and_or]
      rcases h (hnew.1 hf) hmeets with h | h
      · exact .inl (hupdate h)
      · exact .inr (hcheck.2 h)
    · have hf := hnew.2 hn
      have hne := h (hdrops.2 hf) hmeets
      rw [hraces hf, ne_eq, List.append_eq_nil_iff, not_and_or] at hne
      rcases hne with h | h
      · exact .inl (hupdate' h)
      · exact .inr (hcheck.1 h)

/-- Eight bytes were written without a lock, by a task that is parallel. -/
theorem racesWithUnlocked_of_noticed_whole :
    (NoticesUnlocked secondTask LockSet.flags ⟨[7]⟩ true coarseWrite 8 8 →
        RacesWithUnlocked secondTask LockSet.flags ⟨[7]⟩ 20 true coarseWrite 8 8) ∧
      (RacesWithUnlocked secondTask LockSet.flags ⟨[7]⟩ 20 true coarseWrite 8 8 →
        MayNoticeUnlocked secondTask LockSet.flags ⟨[7]⟩ true coarseWrite 8 8) ∧
      (true = true → (MayNoticeUnlocked secondTask LockSet.flags ⟨[7]⟩ true coarseWrite 8 8 ↔
        NoticesUnlocked secondTask LockSet.flags ⟨[7]⟩ true coarseWrite 8 8)) :=
  racesWithUnlocked_of_noticed secondTask 20 LockSet.flags ⟨[7]⟩ true coarseWrite_ok 8 8

/-- A read of them under a lock is not reported. -/
theorem not_racesWithUnlocked :
    ¬ RacesWithUnlocked secondTask LockSet.flags ⟨[7]⟩ 20 true coarseWrite 8 8 := by
  intro h
  have hkept : (coarseWrite.setOccupied true 8 8).1 = true := by decide +kernel
  have hget : coarseWrite.writes.table.get 8 = some ⟨1, 0, 10⟩ := by decide +kernel
  refine h (by rw [SimpleShadowMem.Drops, hkept]; decide)
    ⟨false, 8, ⟨1, 0, 10⟩, fun _ => rfl, Nat.le_refl _, by decide, hget, rfl, rfl⟩ ?_
  decide +kernel

end Cilksan
