/-
The fast path for small aligned accesses, against the slow one. The fast path
refines the line before it looks at an entry, so that it treats each byte by
itself; the slow path does the same unless an insertion swallows a parallel
entry (`checkReadFast_agrees_iff`).
-/
import CilkTools.Cilksan.ByteUpdates

namespace Cilksan

open UpdateIterator (Swallowed Replaced)

variable {f : Strand} {accId p n b : Nat} {d : Pages MemoryAccess}

/-- Each byte of the range by itself. -/
def SetsInSeries (f : Strand) (accId : Nat) (d d' : Pages MemoryAccess) (p n : Nat) : Prop :=
  ∀ b, d'.get b = if (p ≤ b ∧ b < p + n) ∧ inSeries f.previousAccessInParallel (d.get b) = true then
    some (f.maSetFn accId (d.get b)) else d.get b

/-- The accesses a race of this type is reported with. -/
def Reported (races : List Race) (type : RaceType) (k : Nat × Nat) : Prop :=
  ∃ r ∈ races, r.type = type ∧ r.prev.verFunc = k

/-- A parallel entry of the range. -/
def ParallelIn (f : Strand) (d : Pages MemoryAccess) (p n : Nat) (k : Nat × Nat) : Prop :=
  ∃ b y, p ≤ b ∧ b < p + n ∧ d.get b = some y ∧ f.previousAccessInParallel y = true ∧ y.verFunc = k

theorem reported_flatMap {type t : RaceType} {xs : List (Stretch MemoryAccess)} {k : Nat × Nat} :
    Reported (xs.flatMap (raceWith f accId type)) t k ↔
      t = type ∧ ∃ x ∈ xs, ∃ y, x.prev = some y ∧ f.previousAccessInParallel y = true ∧
      y.verFunc = k := by
  constructor
  · intro ⟨r, hr, ht, hk⟩
    obtain ⟨x, hx, hr⟩ := List.mem_flatMap.1 hr
    obtain ⟨h₁, -, -, h₂, h₃⟩ := mem_raceWith.1 hr
    exact ⟨ht.symm.trans h₁, x, hx, r.prev, h₂, h₃, hk⟩
  · intro ⟨ht, x, hx, y, h₁, h₂, hk⟩
    exact ⟨⟨y, accId, x.start, type⟩,
      List.mem_flatMap.2 ⟨x, hx, mem_raceWith.2 ⟨rfl, rfl, rfl, h₁, h₂⟩⟩, ht.symm, hk⟩

/-! ## Checks -/

theorem checkRace_reported (f : Strand) (accId : Nat) (type t : RaceType) (hw : d.WF)
    (k : Nat × Nat) :
    Reported (checkRace f accId type d p n) t k ↔ t = type ∧ ParallelIn f d p n k := by
  obtain ⟨p', xs, hle, hnone, -, hwalk, heq⟩ :=
    QueryIterator.queryRange_walk hw MemoryAccess.verFunc p (p + n)
  have hchunk := Chunk.mk_eq_upTo p n
  unfold Reported checkRace
  rw [hchunk, heq, foldl_append, List.nil_append]
  constructor
  · intro ⟨r, hr, ht, hk⟩
    obtain ⟨x, hx, hr⟩ := List.mem_flatMap.1 hr
    obtain ⟨h₁, -, -, h₂, h₃⟩ := mem_raceWith.1 hr
    obtain ⟨b, hb, hbe, y, hy, hyk⟩ :=
      (QueryIterator.exists_visited_iff hle hnone hwalk k).1 ⟨x, hx, r.prev, h₂, hk⟩
    exact ⟨ht.symm.trans h₁, b, y, hb, hbe, hy,
      (verFunc_par f _ _ (hyk.trans hk.symm)).trans h₃, hyk⟩
  · intro ⟨ht, b, y, h₁, h₂, hy, hpar, hk⟩
    obtain ⟨x, hx, z, hz, hzk⟩ :=
      (QueryIterator.exists_visited_iff hle hnone hwalk k).2 ⟨b, h₁, h₂, y, hy, hk⟩
    have hzpar := (verFunc_par f z y (hzk.trans hk.symm)).trans hpar
    exact ⟨⟨z, accId, x.start, type⟩,
      List.mem_flatMap.2 ⟨x, hx, mem_raceWith.2 ⟨rfl, rfl, rfl, hz, hzpar⟩⟩, ht.symm, hzk⟩

theorem raceWithEntry_reported (type t : RaceType) (prev : Option MemoryAccess) (k : Nat × Nat) :
    Reported (SimpleShadowMem.raceWithEntry f accId type p prev) t k ↔
      t = type ∧ ∃ y, prev = some y ∧ f.previousAccessInParallel y = true ∧ y.verFunc = k := by
  constructor
  · intro ⟨r, hr, ht, hk⟩
    obtain ⟨h₁, -, -, h₂, h₃⟩ := mem_raceWith.1 hr
    exact ⟨ht.symm.trans h₁, r.prev, h₂, h₃, hk⟩
  · intro ⟨ht, y, hy, hpar, hk⟩
    exact ⟨⟨y, accId, p, type⟩, mem_raceWith.2 ⟨rfl, rfl, rfl, hy, hpar⟩, ht.symm, hk⟩

/-- A small access: aligned to a power of two that it does not exceed. -/
structure SmallAccess (p n lg : Nat) : Prop where
  pos : 0 < n
  le : n ≤ 2 ^ lg
  small : lg ≤ 9
  aligned : 2 ^ lg ∣ p

namespace SmallAccess

variable {lg : Nat}

theorem sameLine (h : SmallAccess p n lg) (h₁ : p ≤ b) (h₂ : b < p + n) : SameLine b p := by
  have hle := h.le
  exact Pages.sameLine_of_grain h.small ((Line.grain_iff h.aligned).2 ⟨h₁, by omega⟩)

/-- A grain that divides its size divides both its ends. -/
theorem grain (h : SmallAccess p n lg) {g : Nat} (hg : g ≤ ctz n) :
    g ≤ lg ∧ Chunk.Grain p (p + n) g := by
  have hdvd : 2 ^ g ∣ n := Dvd.dvd.trans (Nat.pow_dvd_pow 2 hg) (ctz_dvd n)
  have hglg : g ≤ lg :=
    (Nat.pow_le_pow_iff_right (by decide)).1 (Nat.le_trans (Nat.le_of_dvd h.pos hdvd) h.le)
  have hp : 2 ^ g ∣ p := Dvd.dvd.trans (Nat.pow_dvd_pow 2 hglg) h.aligned
  exact ⟨hglg, Nat.le_trans hglg h.small, hp, fun _ => (Nat.dvd_add_right hp).2 hdvd⟩

/-- An entry of the access's size is what it covers. -/
theorem entry_iff (h : SmallAccess p n lg) {g : Nat} (hg : 2 ^ g = n) : b / 2 ^ g = p / 2 ^ g ↔
    p ≤ b ∧ b < p + n := by
  have hglg : g ≤ lg := (Nat.pow_le_pow_iff_right (by decide)).1 (hg ▸ h.le)
  rw [Line.grain_iff (Dvd.dvd.trans (Nat.pow_dvd_pow 2 hglg) h.aligned), hg]

/-- Its entry is that of each of its bytes. -/
theorem get_eq (h : SmallAccess p n lg) (hw : d.WF) (hg : 2 ^ (d.lineAt p).lgGrainsize = n)
    (h₁ : p ≤ b) (h₂ : b < p + n) : d.get b = d.get p := by
  have hs := h.sameLine h₁ h₂
  rw [Pages.get_eq, Pages.get_eq p, Pages.lineAt_congr hs]
  exact (hw.getD p).shadow_grain hs ((h.entry_iff hg).2 ⟨h₁, h₂⟩)

end SmallAccess

theorem checkFast_reported {lg : Nat} (ha : SmallAccess p n lg) (type t : RaceType) (hw : d.WF)
    (k : Nat × Nat) :
    Reported (SimpleShadowMem.checkFast f accId type d p n) t k ↔
    t = type ∧ ParallelIn f d p n k := by
  have hnil : (∀ b, p ≤ b → b < p + n → d.get b = none) →
      (Reported [] t k ↔ t = type ∧ ParallelIn f d p n k) := fun hn =>
    iff_of_false (fun h => by obtain ⟨r, hr, -⟩ := h; exact List.not_mem_nil hr) fun h => by
      obtain ⟨_, b, y, h₁, h₂, hy, -⟩ := h
      rw [hn b h₁ h₂] at hy
      cases hy
  unfold SimpleShadowMem.checkFast
  cases hl : d.getLine p with
  | none =>
    refine hnil fun b h₁ h₂ => ?_
    rw [Pages.get, Pages.getLine_congr (ha.sameLine h₁ h₂), hl]
    rfl
  | some l =>
    have hat : d.lineAt p = l := by
      unfold Pages.lineAt
      rw [hl]
      rfl
    simp only
    split
    · next he =>
      refine hnil fun b h₁ h₂ => ?_
      rw [Pages.get, Pages.getLine_congr (ha.sameLine h₁ h₂), hl]
      exact Line.shadow_of_isEmpty he b
    · next he =>
      split
      · exact checkRace_reported f accId type t hw k
      · next hg =>
        rw [not_not] at hg
        rw [raceWithEntry_reported, ← (hw p l hl).shadow_eq, ← Pages.get_of_line hl]
        refine and_congr_right fun _ => ⟨?_, ?_⟩
        · intro h
          obtain ⟨y, hy, hpar, hk⟩ := h
          have := ha.pos
          exact ⟨p, y, Nat.le_refl _, by omega, hy, hpar, hk⟩
        · intro h
          obtain ⟨b, y, h₁, h₂, hy, hpar, hk⟩ := h
          exact ⟨y, (ha.get_eq hw (hat ▸ hg) h₁ h₂) ▸ hy, hpar, hk⟩

/-! ## Updates -/

theorem updateEntry_spec (f : Strand) (accId p : Nat) {l : Line MemoryAccess} (hw : l.WF) :
    (SimpleShadowMem.updateEntry f accId l p).WF ∧ ∀ b, SameLine b p →
    (SimpleShadowMem.updateEntry f accId l p).shadow b =
      if b / 2 ^ l.lgGrainsize = p / 2 ^ l.lgGrainsize ∧
          inSeries f.previousAccessInParallel (l.shadow b) = true then
        some (f.maSetFn accId (l.shadow b)) else l.shadow b := by
  obtain ⟨l₁, hl₁, hw₁, hm₁, hg₁, hsh₁⟩ := hw.materialized
  unfold SimpleShadowMem.updateEntry
  simp only [hl₁]
  obtain ⟨hw₂, hsh₂⟩ := hw₁.store hm₁ (f.maSetFn accId) (p := p)
  rw [← hw₁.shadow_eq, hsh₁]
  rw [hg₁] at hsh₂
  split
  · next hs =>
    refine ⟨hw₂, fun b hb => ?_⟩
    rw [hsh₂ b hb, hsh₁]
    split
    · next hcell =>
      rw [if_pos ⟨hcell, by rwa [hw.shadow_grain hb hcell]⟩]
    · next hcell => rw [if_neg fun h => hcell h.1]
  · next hs =>
    refine ⟨hw₁, fun b hb => ?_⟩
    rw [hsh₁, if_neg]
    intro ⟨hcell, hsb⟩
    rw [hw.shadow_grain hb hcell] at hsb
    exact hs hsb

/-- The refined table. -/
theorem lineMustExist_spec {lg : Nat} (ha : SmallAccess p n lg) (hw : d.WF)
    (hp : (d (page p)).isSome = true) : (d.setLine p (SimpleShadowMem.lineMustExist d p n)).WF ∧
      (∀ b, (d.setLine p (SimpleShadowMem.lineMustExist d p n)).get b = d.get b) ∧
      (d.setLine p (SimpleShadowMem.lineMustExist d p n)).lineAt p =
      SimpleShadowMem.lineMustExist d p n ∧
      (SimpleShadowMem.lineMustExist d p n).WF ∧
      (SimpleShadowMem.lineMustExist d p n).lgGrainsize ≤ ctz n ∧
      (d.setLine p (SimpleShadowMem.lineMustExist d p n)).Mapped p (p + n) := by
  obtain ⟨h₁, h₂, h₃⟩ := (hw.getD p).refineTo (ctz n)
  refine ⟨hw.setLine h₁, fun b => ?_, Pages.lineAt_setLine_self rfl _, h₁,
    by unfold SimpleShadowMem.lineMustExist; omega, fun b hb hbe => ?_⟩
  · by_cases hb : SameLine b p
    · rw [Pages.get_setLine_self hb, Pages.get_eq, Pages.lineAt_congr hb]
      exact h₃ b
    · exact Pages.get_setLine_of_ne hb _
  · rw [(sameLine_iff.1 (ha.sameLine hb hbe)).1]
    exact Pages.page_setLine _ _ _ hp

/-- In the refined table nothing parallel is swallowed. -/
theorem replaced_iff_inSeries {lg : Nat} (ha : SmallAccess p n lg) (hw : d.WF)
    (hg : (d.lineAt p).lgGrainsize ≤ ctz n) (h₁ : p ≤ b) (h₂ : b < p + n) :
    Replaced MemoryAccess.verFunc f.previousAccessInParallel d p (p + n) b ↔
      inSeries f.previousAccessInParallel (d.get b) = true :=
  ⟨fun h => h.elim id fun hs => UpdateIterator.inSeries_of_swallowed hw (verFunc_par f) hs
    (ha.sameLine h₁ h₂).symm (ha.grain hg).2, .inl⟩

/-- The fast update of a table, whichever way it goes. -/
theorem updateFast_setsInSeries {lg : Nat} (f : Strand) (accId : Nat)
    (ha : SmallAccess p n lg) (hw : d.WF) (hp : (d (page p)).isSome = true) :
    SetsInSeries f accId d
      (if 2 ^ (SimpleShadowMem.lineMustExist d p n).lgGrainsize ≠ n then
        update f accId (d.setLine p (SimpleShadowMem.lineMustExist d p n)) p n
      else (d.setLine p (SimpleShadowMem.lineMustExist d p n)).setLine p
        (SimpleShadowMem.updateEntry f accId (SimpleShadowMem.lineMustExist d p n) p)) p n := by
  obtain ⟨hw₁, hget, hline, hwl, hg, hm⟩ := lineMustExist_spec ha hw hp
  intro b
  split
  · next hne =>
    obtain ⟨xs, d', hwalk, h₁, -⟩ := update_walk f accId hw₁ hm
    rw [h₁]
    by_cases hin : p ≤ b ∧ b < p + n
    · have hrep := replaced_iff_inSeries (f := f) ha hw₁ (by rw [hline]; exact hg) hin.1 hin.2
      rw [hget] at hrep
      simp only [hin, true_and]
      rw [← hget b] at hrep ⊢
      split
      · next hs => exact hwalk.get_replaced hw₁ (verFunc_par f) hin.1 hin.2 (hrep.2 hs)
      · next hs => exact hwalk.get_not_replaced hw₁ (verFunc_par f) hin.1 fun h => hs (hrep.1 h)
    · rw [if_neg fun h => hin h.1, hwalk.get_of_lt (by omega), hget]
  · next heq =>
    rw [not_not] at heq
    obtain ⟨-, hsh⟩ := updateEntry_spec f accId p hwl
    by_cases hb : SameLine b p
    · have hshb : (SimpleShadowMem.lineMustExist d p n).shadow b = d.get b := by
        rw [← hget b, Pages.get_setLine_self hb]
      rw [Pages.get_setLine_self hb, hsh b hb, hshb]
      simp only [ha.entry_iff heq]
    · rw [Pages.get_setLine_of_ne hb, hget, if_neg fun h => hb (ha.sameLine h.1.1 h.1.2)]

/-- The fast check and update of the write dictionary. -/
theorem checkAndUpdateFast_spec {lg : Nat} (f : Strand) (accId : Nat)
    (ha : SmallAccess p n lg) (hw : d.WF)
    (hp : (d (page p)).isSome = true) (t : RaceType) (k : Nat × Nat) :
    Reported (if 2 ^ (SimpleShadowMem.lineMustExist d p n).lgGrainsize ≠ n then
        (checkAndUpdateWrite f accId (d.setLine p (SimpleShadowMem.lineMustExist d p n)) p n).2
      else SimpleShadowMem.raceWithEntry f accId .wwRace p
        ((SimpleShadowMem.lineMustExist d p n).entry
          ((SimpleShadowMem.lineMustExist d p n).getIdx (byte p)))) t k ↔
      t = .wwRace ∧ ParallelIn f d p n k := by
  obtain ⟨hw₁, hget, hline, hwl, hg, hm⟩ := lineMustExist_spec ha hw hp
  split
  · next hne =>
    obtain ⟨xs, d', hwalk, -, h₂⟩ := update_walk f accId hw₁ hm
    rw [h₂, reported_flatMap, hwalk.exists_kept_iff hw₁ (verFunc_par f)]
    refine and_congr_right fun _ => ⟨?_, ?_⟩
    · intro h
      obtain ⟨b, h₁, h₂, hr, y, hy, hk⟩ := h
      rw [replaced_iff_inSeries ha hw₁ (by rw [hline]; exact hg) h₁ h₂, hy] at hr
      exact ⟨b, y, h₁, h₂, (hget b).symm.trans hy, by simpa [inSeries] using hr, hk⟩
    · intro h
      obtain ⟨b, y, h₁, h₂, hy, hpar, hk⟩ := h
      refine ⟨b, h₁, h₂, fun hr => ?_, y, (hget b).trans hy, hk⟩
      rw [replaced_iff_inSeries ha hw₁ (by rw [hline]; exact hg) h₁ h₂, hget,
        not_inSeries hy hpar] at hr
      cases hr
  · next heq =>
    rw [not_not] at heq
    have hgp :
        (SimpleShadowMem.lineMustExist d p n).entry ((SimpleShadowMem.lineMustExist d p n).getIdx
          (byte p)) = d.get p := by
      rw [← hwl.shadow_eq, ← hget p, Pages.get_setLine_self rfl]
    rw [raceWithEntry_reported, hgp]
    refine and_congr_right fun _ => ⟨?_, ?_⟩
    · intro h
      obtain ⟨y, hy, hpar, hk⟩ := h
      have := ha.pos
      exact ⟨p, y, Nat.le_refl _, by omega, hy, hpar, hk⟩
    · intro h
      obtain ⟨b, y, h₁, h₂, hy, hpar, hk⟩ := h
      have hgb := ha.get_eq hw₁ (by rw [hline]; exact heq) h₁ h₂
      rw [hget, hget] at hgb
      exact ⟨y, hgb ▸ hy, hpar, hk⟩

/-! ## Agreement -/

/-- The same entries, and races with the same stored values. -/
structure Agrees (x y : SimpleShadowMem × List Race) : Prop where
  reads : ∀ b, x.1.reads.table.get b = y.1.reads.table.get b
  writes : ∀ b, x.1.writes.table.get b = y.1.writes.table.get b
  races : ∀ t k, Reported x.2 t k ↔ Reported y.2 t k

/-- No parallel entry of the range is swallowed, unless it is what is written. -/
def KeepsParallel (f : Strand) (accId : Nat) (d : Pages MemoryAccess) (p n : Nat) : Prop :=
  ∀ b y, p ≤ b → b < p + n → d.get b = some y → f.previousAccessInParallel y = true →
    Swallowed MemoryAccess.verFunc f.previousAccessInParallel d p (p + n) b →
    y.func = f.func ∧ y.accId = accId

/-- Of each parallel entry a byte is left that is not swallowed. -/
def LeavesParallel (f : Strand) (d : Pages MemoryAccess) (p n : Nat) : Prop :=
  ∀ b y, p ≤ b → b < p + n → d.get b = some y → f.previousAccessInParallel y = true →
    ∃ c z, p ≤ c ∧ c < p + n ∧ d.get c = some z ∧ z.verFunc = y.verFunc ∧
      ¬ Swallowed MemoryAccess.verFunc f.previousAccessInParallel d p (p + n) c

/-- The slow update does the same if it keeps the parallel entries. -/
theorem setsInSeries_iff (hw : d.WF) {d' d'' : Pages MemoryAccess}
    {xs : List (Stretch MemoryAccess)}
    (h : UpdateIterator.Walk MemoryAccess.verFunc f.previousAccessInParallel (f.maSetFn accId)
      (p + n) d p xs d')
    (hfast : SetsInSeries f accId d d'' p n) : (∀ b, d''.get b = d'.get b) ↔
    KeepsParallel f accId d p n := by
  have hkey := verFunc_par f
  constructor
  · intro heq b y h₁ h₂ hy hpar hsw
    have hnot :
        ¬ ((p ≤ b ∧ b < p + n) ∧ inSeries f.previousAccessInParallel (d.get b) = true) := by
      intro hs
      rw [not_inSeries hy hpar] at hs
      cases hs.2
    have := heq b
    rw [hfast b, if_neg hnot, h.get_replaced hw hkey h₁ h₂ (.inr hsw), hy,
      Option.some.injEq] at this
    exact maSetFn_eq_self.1 this.symm
  · intro hk b
    rw [hfast b]
    split
    · next hin => exact (h.get_replaced hw hkey hin.1.1 hin.1.2 (.inl hin.2)).symm
    · next hout =>
      by_cases hin : p ≤ b ∧ b < p + n
      · have hs : inSeries f.previousAccessInParallel (d.get b) = false := by
          rw [← Bool.not_eq_true]
          exact fun hs => hout ⟨hin, hs⟩
        by_cases hsw : Swallowed MemoryAccess.verFunc f.previousAccessInParallel d p (p + n) b
        · obtain ⟨y, hy⟩ : ∃ y, d.get b = some y := by
            cases hy : d.get b with
            | none => rw [hy] at hs; cases hs
            | some y => exact ⟨y, rfl⟩
          have hpar : f.previousAccessInParallel y = true := by
            rw [hy] at hs
            simpa [inSeries] using hs
          rw [h.get_replaced hw hkey hin.1 hin.2 (.inr hsw), hy]
          exact congrArg some (maSetFn_eq_self.2 (hk b y hin.1 hin.2 hy hpar hsw)).symm
        · refine (h.get_not_replaced hw hkey hin.1 fun hr => hr.elim (fun h => ?_) hsw).symm
          rw [hs] at h
          cases h
      · exact (h.get_of_lt (by omega)).symm

theorem parallelIn_iff (hw : d.WF) {d' : Pages MemoryAccess} {xs : List (Stretch MemoryAccess)}
    (h : UpdateIterator.Walk MemoryAccess.verFunc f.previousAccessInParallel (f.maSetFn accId)
      (p + n) d p xs d') :
    (∀ t k, t = .wwRace ∧ ParallelIn f d p n k ↔
      Reported (xs.flatMap (raceWith f accId .wwRace)) t k) ↔ LeavesParallel f d p n := by
  have hkey := verFunc_par f
  have hkept :
      ∀ k, (∃ b, p ≤ b ∧ b < p + n ∧
        ¬ Replaced MemoryAccess.verFunc f.previousAccessInParallel d p (p + n) b ∧
      ∃ y, d.get b = some y ∧ y.verFunc = k) → ParallelIn f d p n k := fun k h => by
    obtain ⟨b, h₁, h₂, hr, y, hy, hk⟩ := h
    refine ⟨b, y, h₁, h₂, hy, ?_, hk⟩
    by_contra hpar
    exact hr (.inl (by simp [hy, inSeries, hpar]))
  constructor
  · intro hiff b y h₁ h₂ hy hpar
    have := (hiff .wwRace y.verFunc).1 ⟨rfl, b, y, h₁, h₂, hy, hpar, rfl⟩
    rw [reported_flatMap, h.exists_kept_iff hw hkey] at this
    obtain ⟨-, c, h₃, h₄, hr, z, hz, hk⟩ := this
    exact ⟨c, z, h₃, h₄, hz, hk, fun hs => hr (.inr hs)⟩
  · intro hl t k
    rw [reported_flatMap, h.exists_kept_iff hw hkey]
    refine and_congr_right fun _ => ⟨?_, hkept k⟩
    intro h
    obtain ⟨b, y, h₁, h₂, hy, hpar, hk⟩ := h
    obtain ⟨c, z, h₃, h₄, hz, hzk, hs⟩ := hl b y h₁ h₂ hy hpar
    refine ⟨c, h₃, h₄, fun hr => hr.elim (fun h => ?_) hs, z, hz, hzk.trans hk⟩
    rw [not_inSeries hz ((verFunc_par f _ _ hzk).trans hpar)] at h
    cases h

/-- The fast write: a table and races, by the width of the line. -/
theorem checkWriteFast_eq {lg : Nat} (f : Strand) (accId : Nat) (m : SimpleShadowMem)
    (ha : SmallAccess p n lg)
    (hw : m.writes.table.WF) (hp : (m.writes.table (page p)).isSome = true) {l : Line MemoryAccess}
    (hl : SimpleShadowMem.lineMustExist m.writes.table p n = l) :
    (m.checkWriteFast f accId p n).1.writes.table =
      (if 2 ^ l.lgGrainsize ≠ n then update f accId (m.writes.table.setLine p l) p n
      else (m.writes.table.setLine p l).setLine p (SimpleShadowMem.updateEntry f accId l p)) ∧
    (m.checkWriteFast f accId p n).1.reads = m.reads ∧
    (m.checkWriteFast f accId p n).2 =
      (if 2 ^ l.lgGrainsize ≠
        n then (checkAndUpdateWrite f accId (m.writes.table.setLine p l) p n).2
      else SimpleShadowMem.raceWithEntry f accId .wwRace p (l.entry (l.getIdx (byte p)))) ++
        SimpleShadowMem.checkFast f accId .rwRace m.reads.table p n := by
  obtain ⟨hw₁, -, -, -, -, hm⟩ := lineMustExist_spec ha hw hp
  rw [hl] at hw₁ hm
  unfold SimpleShadowMem.checkWriteFast
  simp only [hl]
  split
  · exact ⟨checkAndUpdateWrite_fst f accId hw₁ hm, trivial, rfl⟩
  · exact ⟨rfl, trivial, rfl⟩

theorem reported_append {r s : List Race} {t : RaceType} {k : Nat × Nat} :
    Reported (r ++ s) t k ↔ Reported r t k ∨ Reported s t k := by
  unfold Reported
  simp only [List.mem_append, or_and_right, exists_or]

/-- **The fast path.** For an aligned access it agrees with the slow path
exactly if the slow path swallows no parallel entry that matters. -/
theorem checkFast_agrees_iff (f : Strand) (accId : Nat) (m : SimpleShadowMem) (p n lg : Nat)
    (ha : SmallAccess p n lg) (hr : m.reads.table.WF) (hw : m.writes.table.WF) :
    ((m.reads.table (page p)).isSome = true →
      (Agrees (m.checkReadFast f accId p n) (m.checkRacesAndUpdateWithRead f accId p n) ↔
        KeepsParallel f accId m.reads.table p n)) ∧
    ((m.writes.table (page p)).isSome = true →
      (Agrees (m.checkWriteFast f accId p n) (m.checkRacesAndUpdateWithWrite f accId p n) ↔
        KeepsParallel f accId m.writes.table p n ∧ LeavesParallel f m.writes.table p n)) := by
  constructor
  · intro hp
    have hm : m.reads.table.Mapped p (p + n) :=
      fun b h₁ h₂ => by rwa [(sameLine_iff.1 (ha.sameLine h₁ h₂)).1]
    obtain ⟨xs, d', hwalk, h₁, -⟩ := update_walk f accId hr hm
    have hfast := updateFast_setsInSeries f accId ha hr hp
    rw [← setsInSeries_iff hr hwalk hfast, ← h₁]
    refine ⟨fun h => h.reads, fun h => ⟨h, fun _ => rfl, fun t k => ?_⟩⟩
    exact (checkFast_reported ha .wrRace t hw k).trans
      (checkRace_reported f accId .wrRace t hw k).symm
  · intro hp
    have hm : m.writes.table.Mapped p (p + n) :=
      fun b h₁ h₂ => by rwa [(sameLine_iff.1 (ha.sameLine h₁ h₂)).1]
    obtain ⟨xs, d', hwalk, -, h₂⟩ := update_walk f accId hw hm
    have hfast := updateFast_setsInSeries f accId ha hw hp
    have hww := checkAndUpdateFast_spec f accId ha hw hp
    have hslow : m.checkRacesAndUpdateWithWrite f accId p n =
        ({ m with writes := { m.writes with table := d' } },
        xs.flatMap (raceWith f accId .wwRace) ++ checkRace f accId .rwRace m.reads.table p n) := by
      unfold SimpleShadowMem.checkRacesAndUpdateWithWrite
      rw [h₂]
    obtain ⟨htable, hreads, hraces⟩ := checkWriteFast_eq f accId m ha hw hp rfl
    rw [← htable] at hfast
    rw [← setsInSeries_iff hw hwalk hfast, ← parallelIn_iff hw hwalk, hslow]
    constructor
    · intro h
      refine ⟨h.writes, fun t k => ?_⟩
      have hrace := h.races t k
      rw [hraces, reported_append, reported_append, hww, checkFast_reported ha .rwRace t hr k,
        checkRace_reported f accId .rwRace t hr k] at hrace
      -- The races of the other dictionary have another type.
      cases t with
      | wwRace => simpa using hrace
      | rwRace =>
        exact iff_of_false (fun h => nomatch h.1) fun h => nomatch (reported_flatMap.1 h).1
      | wrRace =>
        exact iff_of_false (fun h => nomatch h.1) fun h => nomatch (reported_flatMap.1 h).1
    · intro ⟨h₃, h₄⟩
      refine ⟨fun b => by rw [hreads], h₃, fun t k => ?_⟩
      rw [hraces, reported_append, reported_append, hww, h₄, checkFast_reported ha .rwRace t hr k,
        checkRace_reported f accId .rwRace t hr k]

/-- Node 1 at bytes 16 to 31 and 48 to 63, in entries of 16 bytes. -/
def sixteenLine : Line MemoryAccess where
  lgGrainsize := 4
  numNonNullEls := 2
  data := some ([none, some ⟨1, 0, 10⟩, none, some ⟨1, 0, 10⟩] ++ List.replicate 28 none)

theorem sixteenLine_wf : sixteenLine.WF :=
  ⟨by decide, fun ds h => by cases h; rfl, by decide +kernel⟩

def sixteenMem : SimpleShadowMem where
  reads := { table := .single {} }
  writes := { table := .single sixteenLine }

/-- A write of the 24 bytes from 32 on, aligned to 32: the slow path sets bytes
48 to 55 and reports nothing. -/
theorem checkFast_disagrees :
    ¬ Agrees (sixteenMem.checkWriteFast swallowingStrand 5 32 24)
      (sixteenMem.checkRacesAndUpdateWithWrite swallowingStrand 5 32 24) := by
  intro h
  have h48 := h.writes 48
  revert h48
  decide +kernel

/-- Accesses of one entry. -/
theorem checkFast_agrees_iff_sixteen :
    (Agrees (sixteenMem.checkReadFast swallowingStrand 5 16 16)
        (sixteenMem.checkRacesAndUpdateWithRead swallowingStrand 5 16 16) ↔
      KeepsParallel swallowingStrand 5 sixteenMem.reads.table 16 16) ∧
    (Agrees (sixteenMem.checkWriteFast swallowingStrand 5 16 16)
        (sixteenMem.checkRacesAndUpdateWithWrite swallowingStrand 5 16 16) ↔
      KeepsParallel swallowingStrand 5 sixteenMem.writes.table 16 16 ∧
        LeavesParallel swallowingStrand sixteenMem.writes.table 16 16) :=
  have h :=
    checkFast_agrees_iff swallowingStrand 5 sixteenMem 16 16 4
      ⟨by decide, by decide, by decide, by decide⟩
    (Pages.single_wf .empty) (Pages.single_wf sixteenLine_wf)
  ⟨h.1 rfl, h.2 rfl⟩

end Cilksan
