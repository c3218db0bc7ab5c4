/-
A line of the shadow memory (`AbstractLine_t`): one entry for each
2^lgGrainsize bytes, the grainsize getting finer when an access needs it. An
entry is `none` when it is invalid; `operator==` compares entries by `key`.

`Line.shadow` is the entry of a byte, and each operation has one lemma that says
what it does to every byte of the line.
-/
import CilkTools.Cilksan.Chunk
import Mathlib.Data.List.Basic
import Mathlib.Tactic.Ring

namespace Cilksan

/-- `numNonNullEls` counts the valid entries of `data`, an array made when it
is first needed. -/
structure Line (β : Type u) where
  lgGrainsize : Nat := LG_LINE_SIZE
  numNonNullEls : Nat := 0
  data : Option (List (Option β)) := none

namespace Line

variable {β : Type u}

def isEmpty (l : Line β) : Bool := l.numNonNullEls == 0

def isMaterialized (l : Line β) : Bool := l.data.isSome

def numData (lgGrainsize : Nat) : Nat := 2 ^ LG_LINE_SIZE / 2 ^ lgGrainsize

def materialize (l : Line β) : Line β :=
  { l with data := some (List.replicate (numData l.lgGrainsize) none) }

/-- Each entry is repeated in the finer array. -/
def refine (l : Line β) (newLgGrainsize : Nat) : Line β :=
  match l.data with
  | none => { l with lgGrainsize := newLgGrainsize }
  | some data =>
    if l.isEmpty then
      { l with
        data := some (List.replicate (numData newLgGrainsize) none)
        lgGrainsize := newLgGrainsize }
    else
      let replFactor := 2 ^ l.lgGrainsize / 2 ^ newLgGrainsize
      { data := some (data.flatMap (List.replicate replFactor))
        numNonNullEls := l.numNonNullEls * replFactor
        lgGrainsize := newLgGrainsize }

def reset (l : Line β) : Line β :=
  if l.isMaterialized then {} else { l with lgGrainsize := LG_LINE_SIZE }

def getIdx (l : Line β) (byte : Nat) : Nat := byte / 2 ^ l.lgGrainsize

def entry (l : Line β) (idx : Nat) : Option β := (l.data.getD [])[idx]?.join

/-- The entry, counted if it was invalid, becomes what `setFn` makes of it. -/
def store (setFn : Option β → β) (l : Line β) (idx : Nat) : Line β :=
  { l with
    numNonNullEls := if (l.entry idx).isSome then l.numNonNullEls else l.numNonNullEls + 1
    data := l.data.map (·.set idx (some (setFn (l.entry idx)))) }

def invalidate (l : Line β) (idx : Nat) : Line β :=
  { l with
    numNonNullEls := l.numNonNullEls - 1
    data := l.data.map (·.set idx none) }

variable {κ : Type v} [DecidableEq κ] (key : β → κ) (setFn : Option β → β)

/-- Go on over an invalid entry, or one that is the same as the previous one. -/
def goesOn (previous : Option β) : Option β → Bool
  | none => true
  | some y => previous.any fun x => decide (key x = key y)

/-- The loop of `insert`, at most once for each byte of a line. -/
def insertLoop (previous : Option β) (accessedLgGrainsize : Nat) :
    Nat → Line β → Chunk → Line β × Chunk
  | 0, l, accessed => (l, accessed)
  | n + 1, l, accessed =>
    let l := l.store setFn (l.getIdx (byte accessed.addr))
    let accessed := accessed.next accessedLgGrainsize
    if accessed.isEmpty then (l, accessed)
    else if isLineStart accessed.addr then (l, accessed)
    else if goesOn key previous (l.entry (l.getIdx (byte accessed.addr))) then
      insertLoop previous accessedLgGrainsize n l accessed
    else (l, accessed)

def insert (l : Line β) (accessed : Chunk) (prevIdx : Nat) : Line β × Chunk :=
  let accessedLgGrainsize := accessed.getLgGrainsize
  let l := if l.isMaterialized then l else l.materialize
  if accessedLgGrainsize = LG_LINE_SIZE ∧ l.lgGrainsize = LG_LINE_SIZE then
    (l.store setFn 0, accessed.next accessedLgGrainsize)
  else
    let lgGrainsize := l.lgGrainsize
    let l := if lgGrainsize > accessedLgGrainsize then l.refine accessedLgGrainsize else l
    let accessedLgGrainsize :=
      if lgGrainsize < accessedLgGrainsize then lgGrainsize else accessedLgGrainsize
    insertLoop key setFn (l.entry prevIdx) accessedLgGrainsize LINE_SIZE l accessed

def clearLoop (accessedLgGrainsize : Nat) : Nat → Line β → Chunk → Line β × Chunk
  | 0, l, accessed => (l, accessed)
  | n + 1, l, accessed =>
    let idx := l.getIdx (byte accessed.addr)
    let (l, accessed) :=
      if (l.entry idx).isSome then
        let l := l.invalidate idx
        if l.isEmpty then
          (if l.lgGrainsize ≠ LG_LINE_SIZE then l.reset else l, accessed.next LG_LINE_SIZE)
        else (l, accessed.next accessedLgGrainsize)
      else (l, accessed.next accessedLgGrainsize)
    if !accessed.isEmpty && !isLineStart accessed.addr then
      clearLoop accessedLgGrainsize n l accessed
    else (l, accessed)

def clear (l : Line β) (accessed : Chunk) : Line β × Chunk :=
  let accessedLgGrainsize := accessed.getLgGrainsize
  if accessedLgGrainsize = LG_LINE_SIZE then
    (if !l.isEmpty then l.reset else l, accessed.next accessedLgGrainsize)
  else
    let lgGrainsize := l.lgGrainsize
    let l := if lgGrainsize > accessedLgGrainsize then l.refine accessedLgGrainsize else l
    let accessedLgGrainsize :=
      if lgGrainsize < accessedLgGrainsize then lgGrainsize else accessedLgGrainsize
    if l.isEmpty then (l, accessed.next LG_LINE_SIZE)
    else clearLoop accessedLgGrainsize LINE_SIZE l accessed

/-- The line becomes as fine as an access if it is not yet. -/
def refineTo (l : Line β) (lgGrainsize : Nat) : Line β :=
  if l.lgGrainsize > lgGrainsize then l.refine lgGrainsize else l

/-! ## Entries of bytes -/

/-- The entry of the byte at `b`. -/
def shadow (l : Line β) (b : Nat) : Option β :=
  if l.isEmpty then none else l.entry (l.getIdx (byte b))

/-- The array has its size, and the count is right. -/
structure WF (l : Line β) : Prop where
  le : l.lgGrainsize ≤ 9
  length : ∀ ds, l.data = some ds → ds.length = numData l.lgGrainsize
  count : l.numNonNullEls = (l.data.getD []).countP Option.isSome

variable {l : Line β} {key setFn}

theorem goesOn_self (o : Option β) : goesOn key o o = true := by
  cases o <;> simp [goesOn]

theorem goesOn_trans {prev x y : Option β} (h₁ : goesOn key prev x = true)
    (h₂ : goesOn key x y = true) : goesOn key prev y = true := by
  cases y with
  | none => rfl
  | some y =>
    cases x with
    | none => cases h₂
    | some x =>
      cases prev with
      | none => cases h₁
      | some prev =>
        simp only [goesOn, Option.any_some, decide_eq_true_eq] at h₁ h₂ ⊢
        exact h₁.trans h₂

theorem numData_eq {g : Nat} (hg : g ≤ 9) : numData g = 2 ^ (9 - g) := Nat.pow_div hg (by decide)

theorem WF.empty : ({} : Line β).WF := ⟨Nat.le_refl _, by simp, rfl⟩

theorem WF.entry_none (hw : l.WF) (he : l.isEmpty = true) (i : Nat) : l.entry i = none := by
  unfold isEmpty at he
  rw [beq_iff_eq, hw.count, List.countP_eq_zero] at he
  unfold entry
  cases h : (l.data.getD [])[i]? with
  | none => rfl
  | some o =>
    have := he o (List.mem_of_getElem? h)
    simpa using this

theorem WF.shadow_eq (hw : l.WF) (b : Nat) : l.shadow b = l.entry (l.getIdx (byte b)) := by
  unfold Line.shadow
  split
  · next he => rw [hw.entry_none he]
  · rfl

/-- One entry for the bytes of a grain. -/
theorem WF.shadow_grain (hw : l.WF) {b c : Nat} (hl : SameLine b c)
    (h : b / 2 ^ l.lgGrainsize = c / 2 ^ l.lgGrainsize) : l.shadow b = l.shadow c := by
  rw [hw.shadow_eq, hw.shadow_eq]
  unfold getIdx
  rw [(entry_eq_iff hw.le hl).2 h]

theorem entry_of_none (h : l.data = none) (i : Nat) : l.entry i = none := by simp [entry, h]

theorem WF.materialize (hw : l.WF) (h : l.data = none) : l.materialize.WF where
  le := hw.le
  length ds hds := by
    cases hds
    exact List.length_replicate
  count := by
    have := hw.count
    simp only [h, Option.getD_none, List.countP_nil] at this
    simp [Line.materialize, this, List.countP_replicate]

theorem WF.shadow_materialize (hw : l.WF) (h : l.data = none) (b : Nat) :
    l.materialize.shadow b = l.shadow b := by
  rw [(hw.materialize h).shadow_eq, hw.shadow_eq, entry_of_none h]
  simp only [entry, Line.materialize, Option.getD_some, List.getElem?_replicate]
  split <;> rfl

/-- The line with its array. -/
theorem WF.materialized (hw : l.WF) :
    ∃ l₁, (if l.isMaterialized then l else l.materialize) = l₁ ∧ l₁.WF ∧
    l₁.isMaterialized = true ∧ l₁.lgGrainsize = l.lgGrainsize ∧ ∀ b, l₁.shadow b = l.shadow b := by
  refine ⟨_, rfl, ?_⟩
  split
  · next hm => exact ⟨hw, hm, rfl, fun _ => rfl⟩
  · next hm =>
    have hnone : l.data = none := by simpa [isMaterialized] using hm
    exact ⟨hw.materialize hnone, rfl, rfl, hw.shadow_materialize hnone⟩

theorem getElem?_flatMap_replicate {r : Nat} (hr : 0 < r) : ∀ (ds : List (Option β)) (i : Nat),
    (ds.flatMap (List.replicate r))[i]? = ds[i / r]?
  | [], i => by simp
  | d :: ds, i => by
    rw [List.flatMap_cons]
    rcases Nat.lt_or_ge i r with h | h
    · rw [List.getElem?_append_left (by simpa using h), Nat.div_eq_of_lt h,
        List.getElem?_replicate, if_pos h]
      rfl
    · rw [List.getElem?_append_right (by simpa using h), List.length_replicate,
        getElem?_flatMap_replicate hr ds, Nat.div_eq_sub_div hr h]
      rfl

theorem countP_flatMap_replicate (r : Nat) (ds : List (Option β)) :
    (ds.flatMap (List.replicate r)).countP Option.isSome = ds.countP Option.isSome * r := by
  induction ds with
  | nil => simp
  | cons d ds ih =>
    rw [List.flatMap_cons, List.countP_append, ih, List.countP_replicate, List.countP_cons]
    split
    · next h => rw [Nat.add_mul, Nat.one_mul, Nat.add_comm]
    · next h => rw [Nat.zero_add, Nat.add_zero]

theorem length_flatMap_replicate (r : Nat) (ds : List (Option β)) :
    (ds.flatMap (List.replicate r)).length = ds.length * r := by
  induction ds with
  | nil => simp
  | cons d ds ih =>
    rw [List.flatMap_cons, List.length_append, ih, List.length_replicate, List.length_cons,
      Nat.add_mul, Nat.one_mul, Nat.add_comm]

/-- A refined line has the same entries. -/
theorem WF.refine (hw : l.WF) {g : Nat} (hg : g < l.lgGrainsize) :
    (l.refine g).WF ∧ (l.refine g).lgGrainsize = g ∧
    (l.refine g).isMaterialized = l.isMaterialized ∧
      ∀ b, (l.refine g).shadow b = l.shadow b := by
  have hle := hw.le
  have hpow : 2 ^ l.lgGrainsize / 2 ^ g = 2 ^ (l.lgGrainsize - g) :=
    Nat.pow_div (by omega) (by decide)
  cases h : l.data with
  | none =>
    have hr : l.refine g = { l with lgGrainsize := g } := by
      unfold Line.refine
      rw [h]
    have hw' : ({ l with lgGrainsize := g } : Line β).WF :=
      ⟨by show g ≤ 9; omega, fun ds hds => by simp [h] at hds, hw.count⟩
    rw [hr]
    refine ⟨hw', rfl, rfl, fun b => ?_⟩
    rw [hw'.shadow_eq, hw.shadow_eq, entry_of_none h]
    exact entry_of_none (show ({ l with lgGrainsize := g } : Line β).data = none from h) _
  | some ds =>
    cases he : l.isEmpty with
    | true =>
      have hr :
          l.refine g =
          { l with data := some (List.replicate (numData g) none), lgGrainsize := g } := by
        unfold Line.refine
        rw [h]
        simp only [he, if_true]
      have hzero : l.numNonNullEls = 0 := by simpa [isEmpty] using he
      rw [hr]
      refine ⟨⟨by show g ≤ 9; omega, fun ds hds => ?_, ?_⟩, rfl,
        by simp [isMaterialized, h], fun b => ?_⟩
      · cases hds
        exact List.length_replicate
      · simp [hzero, List.countP_replicate]
      · simp [Line.shadow, isEmpty, hzero]
    | false =>
      have hr : l.refine g = {
          data := some (ds.flatMap (List.replicate (2 ^ l.lgGrainsize / 2 ^ g)))
          numNonNullEls := l.numNonNullEls * (2 ^ l.lgGrainsize / 2 ^ g)
          lgGrainsize := g } := by
        unfold Line.refine
        rw [h]
        simp only [he, Bool.false_eq_true, if_false]
      have hlen := hw.length ds h
      have hcount := hw.count
      rw [h, Option.getD_some] at hcount
      rw [hr]
      have hw' : ({
          data := some (ds.flatMap (List.replicate (2 ^ l.lgGrainsize / 2 ^ g)))
          numNonNullEls := l.numNonNullEls * (2 ^ l.lgGrainsize / 2 ^ g)
          lgGrainsize := g } : Line β).WF := by
        refine ⟨by show g ≤ 9; omega, fun ds' hds => ?_, ?_⟩
        · cases hds
          show _ = numData g
          rw [length_flatMap_replicate, hlen, numData_eq hle, numData_eq (show g ≤ 9 by omega),
            hpow, ← Nat.pow_add]
          congr 1
          omega
        · rw [Option.getD_some, countP_flatMap_replicate, hcount]
      refine ⟨hw', rfl, by simp [isMaterialized, h], fun b => ?_⟩
      rw [hw'.shadow_eq, hw.shadow_eq]
      simp only [entry, getIdx, h, Option.getD_some]
      rw [getElem?_flatMap_replicate (by rw [hpow]; exact Nat.two_pow_pos _), hpow,
        Nat.div_div_eq_div_mul, ← Nat.pow_add, Nat.add_sub_cancel' (Nat.le_of_lt hg)]

theorem WF.refineTo (hw : l.WF) (g : Nat) :
    (l.refineTo g).WF ∧ (l.refineTo g).lgGrainsize = min l.lgGrainsize g ∧
    ∀ b, (l.refineTo g).shadow b = l.shadow b := by
  unfold Line.refineTo
  split
  · next h =>
    obtain ⟨h₁, h₂, -, h₄⟩ := hw.refine h
    exact ⟨h₁, by omega, h₄⟩
  · next h => exact ⟨hw, by omega, fun _ => rfl⟩

theorem entry_set {ds : List (Option β)} {i j : Nat} {o : Option β} (hi : i < ds.length) :
    ((ds.set i o)[j]?).join = if j = i then o else ds[j]?.join := by
  rw [List.getElem?_set]
  split
  · next h =>
    subst h
    simp
  · next h => rw [if_neg (Ne.symm h)]

/-- The bytes of one entry change. -/
theorem WF.store (hw : l.WF) (hm : l.isMaterialized = true) (setFn : Option β → β) {p : Nat} :
    (l.store setFn (l.getIdx (byte p))).WF ∧ ∀ b, SameLine b p →
      (l.store setFn (l.getIdx (byte p))).shadow b =
        if b / 2 ^ l.lgGrainsize = p / 2 ^ l.lgGrainsize then some (setFn (l.shadow b))
            else l.shadow b := by
  obtain ⟨ds, h⟩ := Option.isSome_iff_exists.1 hm
  have hlt : l.getIdx (byte p) < ds.length := by
    rw [hw.length ds h, numData_eq hw.le]
    exact entry_lt hw.le p
  have hentry : l.entry (l.getIdx (byte p)) = ds[l.getIdx (byte p)] := by
    simp [entry, h, hlt]
  have hw' : (l.store setFn (l.getIdx (byte p))).WF := by
    refine ⟨hw.le, fun ds' hds => ?_, ?_⟩
    · simp only [Line.store, h, Option.map_some, Option.some.injEq] at hds
      rw [← hds, List.length_set]
      exact hw.length ds h
    · have hc := hw.count
      rw [h, Option.getD_some] at hc
      simp only [Line.store, hentry, h, Option.map_some, Option.getD_some, List.countP_set hlt,
        Option.isSome_some, if_true]
      split
      · next hs =>
        have hpos : 0 < ds.countP Option.isSome :=
          List.countP_pos_iff.2 ⟨_, List.getElem_mem hlt, hs⟩
        omega
      · next hs => omega
  refine ⟨hw', fun b hb => ?_⟩
  rw [hw'.shadow_eq, hw.shadow_eq]
  simp only [← entry_eq_iff hw.le hb]
  simp only [Line.store, entry, getIdx, h, Option.map_some, Option.getD_some]
  rw [entry_set (show byte p / 2 ^ l.lgGrainsize < ds.length from hlt)]
  split
  · next heq => rw [heq]
  · rfl

/-- The bytes of one valid entry become invalid. -/
theorem WF.invalidate (hw : l.WF) {p : Nat} (hs : (l.entry (l.getIdx (byte p))).isSome = true) :
    (l.invalidate (l.getIdx (byte p))).WF ∧ ∀ b, SameLine b p →
    (l.invalidate (l.getIdx (byte p))).shadow b =
      if b / 2 ^ l.lgGrainsize = p / 2 ^ l.lgGrainsize then none else l.shadow b := by
  obtain ⟨ds, h⟩ : ∃ ds, l.data = some ds := by
    cases h : l.data with
    | none => rw [entry_of_none h] at hs; cases hs
    | some ds => exact ⟨ds, rfl⟩
  have hlt : l.getIdx (byte p) < ds.length := by
    rw [hw.length ds h, numData_eq hw.le]
    exact entry_lt hw.le p
  have hentry : l.entry (l.getIdx (byte p)) = ds[l.getIdx (byte p)] := by
    simp [entry, h, hlt]
  have hw' : (l.invalidate (l.getIdx (byte p))).WF := by
    refine ⟨hw.le, fun ds' hds => ?_, ?_⟩
    · simp only [Line.invalidate, h, Option.map_some, Option.some.injEq] at hds
      rw [← hds, List.length_set]
      exact hw.length ds h
    · have hc := hw.count
      rw [h, Option.getD_some] at hc
      rw [hentry] at hs
      simp only [Line.invalidate, h, Option.map_some, Option.getD_some, List.countP_set hlt,
        hs, if_true, hc]
      simp
  refine ⟨hw', fun b hb => ?_⟩
  rw [hw'.shadow_eq, hw.shadow_eq]
  simp only [← entry_eq_iff hw.le hb]
  simp only [Line.invalidate, entry, getIdx, h, Option.map_some, Option.getD_some]
  rw [entry_set (show byte p / 2 ^ l.lgGrainsize < ds.length from hlt)]

/-- The bytes of the grain that starts at `p`. -/
theorem grain_iff {p b g : Nat} (hd : 2 ^ g ∣ p) : b / 2 ^ g = p / 2 ^ g ↔
    p ≤ b ∧ b < p + 2 ^ g := by
  have hpos : 0 < 2 ^ g := Nat.two_pow_pos g
  rw [← nextMultiple_of_dvd hpos hd]
  refine ⟨fun h => ⟨?_, lt_nextMultiple_of_div_eq hpos h⟩,
    fun h => div_eq_of_lt_nextMultiple hpos h.1 h.2⟩
  obtain ⟨k, rfl⟩ := hd
  rw [Nat.mul_div_cancel_left _ hpos] at h
  rw [← h, Nat.mul_comm]
  exact Nat.div_mul_le_self b _

/-! ## Insertion -/

variable (key setFn)

/-- What the loop of `insert` does from byte `p` on: the bytes before `q`, all
before `e`, are set, and the loop stops at an entry that it does not go on over. -/
structure Inserted (previous : Option β) (g : Nat) (l l' : Line β) (p q e : Nat) : Prop where
  wf : l'.WF
  grain : l'.lgGrainsize = g
  materialized : l'.isMaterialized = true
  lt : p < q
  le : q ≤ e
  leLine : q ≤ lineEnd p
  dvd : 2 ^ g ∣ q
  shadow : ∀ b, SameLine b p →
    l'.shadow b = if p ≤ b ∧ b < q then some (setFn (l.shadow b)) else l.shadow b
  goes : ∀ b, p + 2 ^ g ≤ b → b < q → goesOn key previous (l.shadow b) = true
  stops : q < e → q < lineEnd p → goesOn key previous (l.shadow q) = false

variable {key setFn}

theorem Inserted.congr {previous : Option β} {g p q e : Nat} {l₀ l' : Line β}
    (h : Inserted key setFn previous g l l' p q e) (hsh : ∀ b, l.shadow b = l₀.shadow b) :
    Inserted key setFn previous g l₀ l' p q e :=
  ⟨h.wf, h.grain, h.materialized, h.lt, h.le, h.leLine, h.dvd,
    fun b hb => by rw [h.shadow b hb, hsh],
    fun b h₁ h₂ => by rw [← hsh]; exact h.goes b h₁ h₂,
    fun h₁ h₂ => by rw [← hsh]; exact h.stops h₁ h₂⟩

theorem insertLoop_spec (key : β → κ) (setFn : Option β → β) (previous : Option β) {g e : Nat} :
    ∀ (n : Nat) {p : Nat} {l : Line β}, l.WF → l.isMaterialized = true →
    l.lgGrainsize = g → Chunk.Grain p e g → p < e → lineEnd p - p ≤ n →
    ∃ l' q, insertLoop key setFn previous g n l (.upTo p e) = (l', .upTo q e) ∧
      Inserted key setFn previous g l l' p q e := by
  intro n
  induction n with
  | zero =>
    intro p l _ _ _ _ _ hn
    have := lt_lineEnd (a := p)
    omega
  | succ n ih =>
    intro p l hw hm hg hgr hpe hn
    obtain ⟨hle, hdvd, hstop⟩ := hgr
    have hpos : 0 < 2 ^ g := Nat.two_pow_pos g
    have hnext : nextMultiple (2 ^ g) p = p + 2 ^ g := nextMultiple_of_dvd hpos hdvd
    have hline : p + 2 ^ g ≤ lineEnd p := by
      rw [← hnext]
      exact nextMultiple_le_nextMultiple (grain_dvd hle) (by decide) p
    have hpe' : p + 2 ^ g ≤ e := by
      rcases Nat.lt_or_ge e (lineEnd p) with h | h
      · rw [← hnext]
        exact nextMultiple_le_of_dvd (hstop h) hpe
      · omega
    obtain ⟨hw₁, hsh⟩ := hw.store hm setFn (p := p)
    rw [hg] at hsh
    have hm₁ : (l.store setFn (l.getIdx (byte p))).isMaterialized = true := by
      simpa [isMaterialized, Line.store] using hm
    -- One entry was set, and the loop ends there.
    have hone : goesOn key previous (l.shadow (p + 2 ^ g)) = false ∨ e ≤ p + 2 ^ g ∨
        lineEnd p ≤ p + 2 ^ g →
        Inserted key setFn previous g l (l.store setFn (l.getIdx (byte p))) p
        (p + 2 ^ g) e := fun hend => by
      refine ⟨hw₁, hg, hm₁, by omega, hpe', hline, (Nat.dvd_add_right hdvd).2 (Nat.dvd_refl _),
        fun b hb => ?_,
        fun b h₁ h₂ => by omega,
        fun h₁ h₂ => by rcases hend with h | h | h <;> [exact h; omega; omega]⟩
      rw [hsh b hb]
      simp only [grain_iff hdvd]
    unfold insertLoop
    simp only [Chunk.next_upTo, hnext, Chunk.isEmpty_upTo, Chunk.upTo_addr]
    split
    · next he => exact ⟨_, _, rfl, hone (.inr (.inl he))⟩
    · next he =>
      split
      · next hs =>
        refine ⟨_, _, rfl, hone (.inr (.inr ?_))⟩
        exact nextMultiple_le_of_dvd (isLineStart_iff.1 hs) (by omega)
      · next hs =>
        have hlt : p + 2 ^ g < lineEnd p := by
          refine Nat.lt_of_le_of_ne hline fun h => hs (isLineStart_iff.2 ?_)
          rw [h]
          exact dvd_nextMultiple p
        have hsame : SameLine (p + 2 ^ g) p := sameLine_of_lt (by omega) hlt
        have hkeep : ∀ b, SameLine b p → p + 2 ^ g ≤ b →
            (l.store setFn (l.getIdx (byte p))).shadow b = l.shadow b := fun b hb hle => by
          rw [hsh b hb]
          simp only [grain_iff hdvd]
          rw [if_neg (by omega)]
        rw [← hw₁.shadow_eq, hkeep _ hsame (Nat.le_refl _)]
        split
        · next hgo =>
          obtain ⟨l', q, heq, hins⟩ := ih hw₁ hm₁ (show _ = g from hg)
            (⟨hle, (Nat.dvd_add_right hdvd).2 (Nat.dvd_refl _),
              fun h => hstop (by rwa [lineEnd_eq hsame] at h)⟩ :
              Chunk.Grain (p + 2 ^ g) e g) (by omega) (by rw [lineEnd_eq hsame]; omega)
          have hlq := hins.lt
          refine ⟨l', q, heq, hins.wf, hins.grain, hins.materialized, by omega, hins.le,
            lineEnd_eq hsame ▸ hins.leLine,
            hins.dvd, fun b hb => ?_, fun b h₁ h₂ => ?_, fun h₁ h₂ => ?_⟩
          · rw [hins.shadow b (hb.trans hsame.symm), hsh b hb]
            simp only [grain_iff hdvd]
            split_ifs <;> first | rfl | omega
          · have hb : SameLine b p :=
              sameLine_of_lt (by omega)
                (by have := hins.leLine; rw [lineEnd_eq hsame] at this; omega)
            rcases Nat.lt_or_ge b (p + 2 ^ g + 2 ^ g) with hlt' | hge
            · rw [hw.shadow_grain (hb.trans hsame.symm) ?_]
              · exact hgo
              · rw [hg]
                refine div_eq_of_lt_nextMultiple hpos h₁ ?_
                rwa [nextMultiple_of_dvd hpos ((Nat.dvd_add_right hdvd).2 (Nat.dvd_refl _))]
            · rw [← hkeep b hb (by omega)]
              exact hins.goes b hge h₂
          · rw [← hkeep q (sameLine_of_lt (by omega) h₂) (by omega)]
            exact hins.stops h₁ (by rwa [lineEnd_eq hsame])
        · next hgo => exact ⟨_, _, rfl, hone (.inl (by simpa using hgo))⟩

/-- The entry that `insert` takes for the previous one: the index is that of
byte `p` before the line is refined to grain `g`. -/
def previous (l : Line β) (p g : Nat) : Option β :=
  l.shadow (p / 512 * 512 + byte p / 2 ^ l.lgGrainsize * 2 ^ g)

/-- Without refinement it is the entry of `p`. -/
theorem WF.previous_eq (hw : l.WF) (p : Nat) : l.previous p l.lgGrainsize = l.shadow p := by
  have hpos : 0 < 2 ^ l.lgGrainsize := Nat.two_pow_pos _
  have hle := Nat.div_mul_le_self (byte p) (2 ^ l.lgGrainsize)
  have hlt : byte p < 512 := Nat.mod_lt _ (by decide)
  have hsame : SameLine (p / 512 * 512 + byte p / 2 ^ l.lgGrainsize * 2 ^ l.lgGrainsize) p := by
    unfold SameLine
    omega
  refine hw.shadow_grain hsame ?_
  rw [← entry_eq_iff hw.le hsame, byte_eq]
  rw [Nat.mul_comm, Nat.mul_add_mod, Nat.mod_eq_of_lt (by omega), Nat.mul_div_cancel _ hpos]

/-- At the start of a line there is nothing to shift. -/
theorem previous_of_dvd {p : Nat} (h : 512 ∣ p) (l : Line β) (g : Nat) :
    l.previous p g = l.shadow p := by
  unfold previous
  rw [byte_eq, Nat.mod_eq_zero_of_dvd h, Nat.zero_div, Nat.zero_mul, Nat.add_zero,
    Nat.div_mul_cancel h]

theorem WF.entry_previous {l' : Line β} (hw' : l'.WF) (hle : l'.lgGrainsize ≤ l.lgGrainsize)
    (hsh : ∀ b, l'.shadow b = l.shadow b) (p : Nat) :
    l'.entry (l.getIdx (byte p)) = l.previous p l'.lgGrainsize := by
  have hpos : 0 < 2 ^ l'.lgGrainsize := Nat.two_pow_pos _
  have hidx : byte p / 2 ^ l.lgGrainsize ≤ byte p / 2 ^ l'.lgGrainsize :=
    Nat.div_le_div_left (Nat.pow_le_pow_right (by decide) hle) hpos
  have hmul := Nat.mul_le_mul_right (2 ^ l'.lgGrainsize) hidx
  have hle' := Nat.div_mul_le_self (byte p) (2 ^ l'.lgGrainsize)
  have hlt : byte p < 512 := Nat.mod_lt _ (by decide)
  unfold previous
  rw [← hsh, hw'.shadow_eq]
  unfold getIdx
  congr 1
  rw [byte_eq (_ + _), Nat.mul_comm (p / 512), Nat.mul_add_mod, Nat.mod_eq_of_lt (by omega),
    Nat.mul_div_cancel _ hpos]

theorem WF.insert_spec (hw : l.WF) {p e : Nat} (hpe : p < e) (key : β → κ) (setFn : Option β → β) :
    ∃ l' q, l.insert key setFn (.upTo p e) (l.getIdx (byte p)) = (l', .upTo q e) ∧
      Inserted key setFn (l.previous p (min l.lgGrainsize (Chunk.upTo p e).getLgGrainsize))
        (min l.lgGrainsize (Chunk.upTo p e).getLgGrainsize) l l' p q e := by
  have hgr := Chunk.grain_getLgGrainsize (Nat.le_of_lt hpe)
  obtain ⟨l₁, hl₁, hw₁, hm₁, hg₁, hsh₁⟩ := hw.materialized
  generalize hacc : (Chunk.upTo p e).getLgGrainsize = acc at hgr ⊢
  unfold insert
  simp only [hacc, hl₁]
  split
  · next h9 =>
    obtain ⟨rfl, h9⟩ := h9
    rw [hg₁] at h9
    have hmin : min l.lgGrainsize LG_LINE_SIZE = 9 := by rw [h9]; rfl
    have hdvd : 512 ∣ p := hgr.start
    have hend : lineEnd p = p + 512 := nextMultiple_of_dvd (by decide) hdvd
    have hle : lineEnd p ≤ e := by
      by_contra hlt
      have h₁ : 512 ∣ e := hgr.stop (by omega)
      have h₂ : lineEnd p ≤ e := nextMultiple_le_of_dvd h₁ hpe
      omega
    obtain ⟨hw', hsh'⟩ := hw₁.store hm₁ setFn (p := p)
    have hidx : l₁.getIdx (byte p) = 0 := by
      unfold getIdx
      rw [hg₁, h9]
      exact Nat.div_eq_of_lt (Nat.mod_lt _ (by decide))
    rw [hidx] at hw' hsh'
    have hm₁' :
        (l₁.store setFn 0).isMaterialized = true := by simpa [isMaterialized, Line.store] using hm₁
    refine ⟨_, lineEnd p, by rw [Chunk.next_upTo]; rfl, ?_⟩
    rw [hmin]
    refine Inserted.congr ⟨hw', hg₁.trans h9, hm₁', lt_lineEnd, hle, Nat.le_refl _, hend ▸ ?_,
      fun b hb => ?_, fun b h₁ h₂ => ?_, fun _ h => absurd h (Nat.lt_irrefl _)⟩ hsh₁
    · exact (Nat.dvd_add_right hdvd).2 (Nat.dvd_refl _)
    · rw [hsh' b hb, if_pos (by rw [hg₁, h9]; exact hb), if_pos]
      have h₁ := hb.lt_lineEnd
      unfold SameLine at hb
      omega
    · omega
  · next h9 =>
    -- The line is as fine as the access.
    obtain ⟨l₂, hl₂, hw₂, hm₂, hg₂, hsh₂⟩ :
        ∃ l₂, (if l₁.lgGrainsize > acc then l₁.refine acc else l₁) = l₂ ∧ l₂.WF ∧
        l₂.isMaterialized = true ∧ l₂.lgGrainsize = min l.lgGrainsize acc ∧
        ∀ b, l₂.shadow b = l.shadow b := by
      refine ⟨_, rfl, ?_⟩
      split
      · next hlt =>
        obtain ⟨h₁, h₂, h₃, h₄⟩ := hw₁.refine hlt
        exact ⟨h₁, h₃.trans hm₁, by rw [h₂]; omega, fun b => (h₄ b).trans (hsh₁ b)⟩
      · exact ⟨hw₁, hm₁, by omega, hsh₁⟩
    have hacc' :
        (if l₁.lgGrainsize < acc then l₁.lgGrainsize else acc) = min l.lgGrainsize acc := by
      split <;> omega
    rw [hl₂, hacc', hw₂.entry_previous (by omega) hsh₂ p, hg₂]
    obtain ⟨l', q, heq, hins⟩ :=
      insertLoop_spec key setFn (l.previous p (min l.lgGrainsize acc)) LINE_SIZE hw₂ hm₂ hg₂
        (hgr.mono (Nat.min_le_right _ _)) hpe
        (by have := nextMultiple_le (g := 512) p; unfold lineEnd LINE_SIZE LG_LINE_SIZE; omega)
    exact ⟨l', q, heq, hins.congr hsh₂⟩

/-! ## Clearing -/

/-- The bytes before `e` from `p` to the end of the line are invalid, and the
access goes on after the line if at all. -/
structure Cleared (l l' : Line β) (p q e : Nat) : Prop where
  wf : l'.WF
  lt : p < q
  leLine : q ≤ lineEnd p
  stop : q = lineEnd p ∨ e ≤ q
  shadow : ∀ b, SameLine b p → l'.shadow b = if p ≤ b ∧ b < e then none else l.shadow b

theorem shadow_of_isEmpty (h : l.isEmpty = true) (b : Nat) : l.shadow b = none := by
  unfold shadow
  rw [if_pos h]

theorem WF.reset (hw : l.WF) : l.reset.WF := by
  unfold Line.reset
  split
  · exact .empty
  · next hm =>
    have hnone : l.data = none := by simpa [isMaterialized] using hm
    exact ⟨Nat.le_refl _, fun ds hds => by simp [hnone] at hds, hw.count⟩

theorem WF.shadow_reset (hw : l.WF) (b : Nat) : l.reset.shadow b = none := by
  rw [hw.reset.shadow_eq]
  unfold Line.reset
  split
  · rfl
  · next hm =>
    have hnone : l.data = none := by simpa [isMaterialized] using hm
    exact entry_of_none (by exact hnone) _

theorem clearLoop_spec {g e : Nat} : ∀ (n : Nat) {p : Nat} {l : Line β}, l.WF → l.lgGrainsize = g →
    Chunk.Grain p e g → p < e → lineEnd p - p ≤ n →
    ∃ l' q, clearLoop g n l (.upTo p e) = (l', .upTo q e) ∧ Cleared l l' p q e := by
  intro n
  induction n with
  | zero =>
    intro p l _ _ _ _ hn
    have := lt_lineEnd (a := p)
    omega
  | succ n ih =>
    intro p l hw hg hgr hpe hn
    obtain ⟨hle, hdvd, hstop⟩ := hgr
    have hpos : 0 < 2 ^ g := Nat.two_pow_pos g
    have hnext : nextMultiple (2 ^ g) p = p + 2 ^ g := nextMultiple_of_dvd hpos hdvd
    have hline : p + 2 ^ g ≤ lineEnd p := by
      rw [← hnext]
      exact nextMultiple_le_nextMultiple (grain_dvd hle) (by decide) p
    have hpe' : p + 2 ^ g ≤ e := by
      rcases Nat.lt_or_ge e (lineEnd p) with h | h
      · rw [← hnext]
        exact nextMultiple_le_of_dvd (hstop h) hpe
      · omega
    -- One entry `l₁` later, the loop ends or goes on.
    have hgo : ∀ l₁ : Line β, l₁.WF → l₁.lgGrainsize = g →
        (∀ b, SameLine b p → l₁.shadow b = if p ≤ b ∧ b < p + 2 ^ g then none else l.shadow b) →
        ∃ l' q, (if (!(Chunk.upTo (p + 2 ^ g) e).isEmpty && !isLineStart (p + 2 ^ g)) = true then
            clearLoop g n l₁ (.upTo (p + 2 ^ g) e) else (l₁, .upTo (p + 2 ^ g) e)) =
              (l', .upTo q e) ∧
          Cleared l l' p q e := by
      intro l₁ hw₁ hg₁ hsh₁
      split
      · next hcond =>
        simp only [Bool.and_eq_true, Bool.not_eq_true', ← Bool.not_eq_true,
          Chunk.isEmpty_upTo] at hcond
        obtain ⟨he, hs⟩ := hcond
        have hlt : p + 2 ^ g < lineEnd p := by
          refine Nat.lt_of_le_of_ne hline fun h => hs (isLineStart_iff.2 ?_)
          rw [h]
          exact dvd_nextMultiple p
        have hsame : SameLine (p + 2 ^ g) p := sameLine_of_lt (by omega) hlt
        obtain ⟨l', q, heq, hc⟩ := ih hw₁ hg₁ (⟨hle, (Nat.dvd_add_right hdvd).2 (Nat.dvd_refl _),
          fun h => hstop (by rwa [lineEnd_eq hsame] at h)⟩ : Chunk.Grain (p + 2 ^ g) e g) (by omega)
          (by rw [lineEnd_eq hsame]; omega)
        have hlq := hc.lt
        refine ⟨l', q, heq, hc.wf, by omega, lineEnd_eq hsame ▸ hc.leLine,
          lineEnd_eq hsame ▸ hc.stop, fun b hb => ?_⟩
        rw [hc.shadow b (hb.trans hsame.symm), hsh₁ b hb]
        split_ifs <;> first | rfl | omega
      · next hcond =>
        have hend : p + 2 ^ g = lineEnd p ∨ e ≤ p + 2 ^ g := by
          by_contra hn
          rw [not_or] at hn
          apply hcond
          simp only [Bool.and_eq_true, Bool.not_eq_true', ← Bool.not_eq_true, Chunk.isEmpty_upTo]
          exact ⟨hn.2, fun hs => hn.1
            (Nat.le_antisymm hline (nextMultiple_le_of_dvd (isLineStart_iff.1 hs) (by omega)))⟩
        refine ⟨l₁, _, rfl, hw₁, by omega, hline, hend, fun b hb => ?_⟩
        rw [hsh₁ b hb]
        have hbl := hb.lt_lineEnd
        split_ifs <;> first | rfl | omega
    unfold clearLoop
    cases hs : (l.entry (l.getIdx (byte p))).isSome with
    | false =>
      simp only [Chunk.upTo_addr, hs, Bool.false_eq_true, if_false, Chunk.next_upTo, hnext]
      refine hgo l hw hg fun b hb => ?_
      split
      · next hcell =>
        rw [hw.shadow_grain hb (by rw [hg, grain_iff hdvd]; exact hcell), hw.shadow_eq]
        simpa using hs
      · rfl
    | true =>
      obtain ⟨hw₁, hsh₁⟩ := hw.invalidate hs
      rw [hg] at hsh₁
      simp only [grain_iff hdvd] at hsh₁
      cases hem : (l.invalidate (l.getIdx (byte p))).isEmpty with
      | false =>
        simp only [Chunk.upTo_addr, hs, hem, Bool.false_eq_true, if_false, if_true,
          Chunk.next_upTo, hnext]
        exact hgo _ hw₁ hg hsh₁
      | true =>
        simp only [Chunk.upTo_addr, hs, hem, if_true, Chunk.next_upTo]
        have hstart : isLineStart (nextMultiple (2 ^ LG_LINE_SIZE) p) = true :=
          isLineStart_iff.2 (dvd_nextMultiple p)
        simp only [hstart, Bool.not_true, Bool.and_false, Bool.false_eq_true, if_false]
        have hall : ∀ b, SameLine b p → ¬ (p ≤ b ∧ b < p + 2 ^ g) →
            l.shadow b = none := fun b hb hn => by
          rw [← shadow_of_isEmpty hem b, hsh₁ b hb, if_neg hn]
        obtain ⟨l₂, hl₂, hw₂, hsh₂⟩ :
            ∃ l₂, (if (l.invalidate (l.getIdx (byte p))).lgGrainsize ≠ LG_LINE_SIZE then
            (l.invalidate (l.getIdx (byte p))).reset else l.invalidate (l.getIdx (byte p))) = l₂ ∧
              l₂.WF ∧
            ∀ b, l₂.shadow b = none := by
          refine ⟨_, rfl, ?_⟩
          split
          · exact ⟨hw₁.reset, hw₁.shadow_reset⟩
          · exact ⟨hw₁, shadow_of_isEmpty hem⟩
        refine ⟨l₂, lineEnd p, Prod.ext hl₂ rfl, hw₂, lt_lineEnd, Nat.le_refl _, .inl rfl,
          fun b hb => ?_⟩
        rw [hsh₂]
        split
        · rfl
        · exact (hall b hb (by omega)).symm

theorem WF.clear_spec (hw : l.WF) {p e : Nat} (hpe : p < e) :
    ∃ l' q, l.clear (.upTo p e) = (l', .upTo q e) ∧ Cleared l l' p q e := by
  have hgr := Chunk.grain_getLgGrainsize (Nat.le_of_lt hpe)
  generalize hacc : (Chunk.upTo p e).getLgGrainsize = acc at hgr
  unfold clear
  simp only [hacc]
  split
  · next h9 =>
    cases h9
    have hle : lineEnd p ≤ e := by
      by_contra hlt
      have h₁ : 512 ∣ e := hgr.stop (by omega)
      have h₂ : lineEnd p ≤ e := nextMultiple_le_of_dvd h₁ hpe
      omega
    rw [Chunk.next_upTo]
    refine ⟨_, lineEnd p, rfl, ?_, lt_lineEnd, Nat.le_refl _, .inl rfl, fun b hb => ?_⟩
    · split
      · exact hw.reset
      · exact hw
    · have hdvd : 512 ∣ p := hgr.start
      have h₁ := hb.lt_lineEnd
      have hin : p ≤ b ∧ b < e := by
        unfold SameLine at hb
        omega
      simp only [if_pos hin]
      split
      · exact hw.shadow_reset b
      · next he => exact shadow_of_isEmpty (by simpa using he) b
  · next h9 =>
    obtain ⟨l₂, hl₂, hw₂, hg₂, hsh₂⟩ :
        ∃ l₂, (if l.lgGrainsize > acc then l.refine acc else l) = l₂ ∧ l₂.WF ∧
        l₂.lgGrainsize = min l.lgGrainsize acc ∧ ∀ b, l₂.shadow b = l.shadow b := by
      refine ⟨_, rfl, ?_⟩
      split
      · next hlt =>
        obtain ⟨h₁, h₂, -, h₄⟩ := hw.refine hlt
        exact ⟨h₁, by rw [h₂]; omega, h₄⟩
      · exact ⟨hw, by omega, fun _ => rfl⟩
    have hacc' : (if l.lgGrainsize < acc then l.lgGrainsize else acc) = min l.lgGrainsize acc := by
      split <;> omega
    rw [hl₂, hacc']
    split
    · next he =>
      refine ⟨l₂, lineEnd p, by rw [Chunk.next_upTo]; rfl, hw₂, lt_lineEnd, Nat.le_refl _, .inl rfl,
        fun b _ => ?_⟩
      rw [← hsh₂, shadow_of_isEmpty he]
      split <;> rfl
    · obtain ⟨l', q, heq, hc⟩ :=
        clearLoop_spec LINE_SIZE hw₂ hg₂ (hgr.mono (Nat.min_le_right _ _)) hpe
          (by have := nextMultiple_le (g := 512) p; unfold lineEnd LINE_SIZE LG_LINE_SIZE; omega)
      exact ⟨l', q, heq, hc.wf, hc.lt, hc.leLine, hc.stop, fun b hb => by rw [hc.shadow b hb, hsh₂]⟩

end Line

end Cilksan
