/-
What the operations of an update iterator do to the entries of bytes: where
`next` stops, which bytes `insert` sets, and which ones `clear` makes invalid.

`insert` takes an entry for the one it started at. When it refines the line,
this is the entry of another byte, and `SwallowedFrom` says which bytes are set
on its account.
-/
import CilkTools.Cilksan.QuerySpec

namespace Cilksan

namespace Pages

variable {β : Type u} {d : Pages β}

/-- The line at an address, empty if there is no page. -/
def lineAt (d : Pages β) (addr : Nat) : Line β := (d.getLine addr).getD {}

theorem lineAt_congr {a b : Nat} (h : SameLine a b) : d.lineAt a = d.lineAt b := by
  unfold lineAt
  rw [getLine_congr h]

theorem get_eq (b : Nat) : d.get b = (d.lineAt b).shadow b := (shadow_getD b).symm

theorem lineAt_setLine_self {a b : Nat} (h : SameLine b a) (l : Line β) :
    (d.setLine a l).lineAt b = l := by
  unfold lineAt
  rw [getLine_setLine_self h]
  rfl

theorem lineAt_setLine_of_ne {a b : Nat} (h : ¬ SameLine b a) (l : Line β) :
    (d.setLine a l).lineAt b = d.lineAt b := by
  unfold lineAt
  rw [getLine_setLine]
  split
  · next hpe =>
    rw [if_neg fun hl => h (sameLine_iff.2 ⟨hpe, hl⟩)]
    rfl
  · rfl

/-- The start of an entry holds what the entry does. -/
theorem WF.get_div_mul (hw : d.WF) {a g : Nat} (hg : (d.lineAt a).lgGrainsize = g) :
    SameLine (a / 2 ^ g * 2 ^ g) a ∧ d.get (a / 2 ^ g * 2 ^ g) = d.get a := by
  subst hg
  have hdiv :
    a / 2 ^ (d.lineAt a).lgGrainsize * 2 ^ (d.lineAt a).lgGrainsize / 2 ^ (d.lineAt a).lgGrainsize =
    a / 2 ^ (d.lineAt a).lgGrainsize := Nat.mul_div_cancel _ (Nat.two_pow_pos _)
  have hsame := sameLine_of_grain (hw.getD a).le hdiv
  refine ⟨hsame, ?_⟩
  rw [get_eq, get_eq a, lineAt_congr hsame]
  exact (hw.getD a).shadow_grain hsame hdiv

/-- The pages of a range are there. -/
def Mapped (d : Pages β) (p e : Nat) : Prop := ∀ b, p ≤ b → b < e → (d (page b)).isSome = true

/-- One page, with one line in use. -/
def single (l : Line β) :
    Pages β := fun i => if i = 0 then some fun j => if j = 0 then l else {} else none

theorem single_wf {l : Line β} (h : l.WF) : (single l).WF := by
  intro addr l' hl
  unfold getLine single at hl
  split at hl
  · simp only [Option.map_some, Option.some.injEq] at hl
    split at hl
    · exact hl ▸ h
    · exact hl ▸ .empty
  · cases hl

theorem single_mapped {l : Line β} {p e : Nat} (h : e ≤ 2 ^ 30) : (single l).Mapped p e := by
  intro b _ hb
  have hpage : page b = 0 := Nat.div_eq_of_lt (show b < 2 ^ 30 by omega)
  rw [hpage]
  rfl

end Pages

namespace UpdateIterator

variable {β : Type u} {κ : Type v} [DecidableEq κ] {key : β → κ}
  {setFn : Option β → β} {d : Pages β}

/-! ## `next` -/

/-- Where `next` stops after an entry. -/
def stops (key : β → κ) (d : Pages β) (prev : Option β) (b : Nat) : Bool :=
  !sameEntry key prev (d.get b)

theorem updateWidth_eq {p : Nat} (hp : (d (page p)).isSome = true) :
    d.updateWidth p = 2 ^ (d.lineAt p).lgGrainsize := by
  rw [← Pages.getLine_isSome] at hp
  obtain ⟨l, hl⟩ := Option.isSome_iff_exists.1 hp
  simp [Pages.updateWidth, lgGrainsize, Pages.lineAt, hl]

theorem get_const (hw : d.WF) : (d.updateCells hw).Const d.get :=
  fun _ _ h => (hw.updateCells_same h).2

theorem stops_const (hw : d.WF) (prev : Option β) :
    (d.updateCells hw).Const (stops key d prev) := fun b c h => by
  unfold stops
  rw [get_const hw b c h]

theorem nextLoop_spec (hw : d.WF) (key : β → κ) (prev : Option β) {e : Nat} :
    ∀ (n : Nat) {p a : Nat}, e - p ≤ n → p < e →
    d.Mapped p e → ∃ it, nextLoop key d prev n ⟨.upTo p e, a⟩ = it ∧
      it.accessed =
      .upTo ((d.updateCells hw).seek (stops key d prev) e ((d.updateCells hw).next p)) e ∧
      ((d.updateCells hw).seek (stops key d prev) e ((d.updateCells hw).next p) < e →
        it.entry = (d.updateCells hw).seek (stops key d prev) e ((d.updateCells hw).next p)) := by
  intro n
  induction n with
  | zero => intro p a hn hp; omega
  | succ n ih =>
    intro p a hn hp hmap
    have hnext : nextMultiple (2 ^ lgGrainsize d p) p = (d.updateCells hw).next p := rfl
    have hlt : p < (d.updateCells hw).next p := Cells.lt_next
    refine ⟨_, rfl, ?_⟩
    unfold nextLoop
    simp only [Chunk.upTo_addr, Chunk.next_upTo, hnext, Chunk.isEmpty_upTo]
    generalize (d.updateCells hw).next p = p₁ at hlt ⊢
    split
    · next he =>
      rw [Cells.seek_of_le he]
      exact ⟨rfl, fun h => by omega⟩
    · next he =>
      have hpage := hmap p₁ (by omega) (by omega)
      rw [Option.isNone_eq_false_iff.2 (by simpa using hpage), Bool.and_false]
      simp only [Bool.false_eq_true, if_false]
      split
      · next hs =>
        obtain ⟨it, h₁, h₂⟩ :=
          ih (p := p₁) (a := p₁) (by omega) (by omega) fun b hb he => hmap b (by omega) he
        rw [h₁, Cells.seek_of_not_stop (by omega) (by unfold stops; rw [hs]; rfl)]
        exact h₂
      · next hs =>
        rw [Cells.seek_of_stop (by unfold stops; simpa using hs)]
        exact ⟨rfl, fun _ => rfl⟩

/-- `next` passed the bytes from `p` up to `q`: they hold the entry of `p`, and
if they include the last one, then all of its entry. -/
structure Skips (key : β → κ) (d : Pages β) (p q e : Nat) : Prop where
  lt : p < q
  same : ∀ b, p ≤ b → b < q → b < e → sameEntry key (d.get p) (d.get b) = true
  stops : q < e → sameEntry key (d.get p) (d.get q) = false
  last : e ≤ q → q = nextMultiple (d.updateWidth (e - 1)) (e - 1)

theorem sameEntry_self {x : β} : sameEntry key (some x) (some x) = true := by
  simp [sameEntry]

/-- From a valid entry, `next` goes to the next one that is invalid or not the same. -/
theorem next_spec (hw : d.WF) (key : β → κ) {p e : Nat} (hp : p < e) (hmap : d.Mapped p e)
    (hx : (d.get p).isSome = true) :
    ∃ it q, next key d ⟨.upTo p e, p⟩ = it ∧ it.accessed = .upTo q e ∧ (q < e → it.entry = q) ∧
    Skips key d p q e := by
  obtain ⟨it, h₁, h₂, h₃⟩ := nextLoop_spec hw key (d.get p) _ (Nat.le_refl _) hp hmap (a := p)
  obtain ⟨x, hx⟩ := Option.isSome_iff_exists.1 hx
  have hlt : p < (d.updateCells hw).next p := Cells.lt_next
  have hle :
    (d.updateCells hw).next p ≤
    (d.updateCells hw).seek (stops key d (d.get p)) e ((d.updateCells hw).next p) := Cells.le_seek
  refine ⟨it, _, h₁, h₂, h₃, by omega, fun b hb hbq hbe => ?_, fun hq => ?_, fun he => ?_⟩
  · rcases Nat.lt_or_ge b ((d.updateCells hw).next p) with hbn | hbn
    · rw [(get_const hw).eq hb hbn, hx]
      exact sameEntry_self
    · have hconst : (d.updateCells hw).Const (stops key d (d.get p)) := stops_const hw _
      have := Cells.not_stop_of_lt_seek hconst hbn hbq hbe
      simpa [stops] using this
  · have := Cells.stop_seek hq
    simpa [stops] using this
  · rcases Nat.lt_or_ge ((d.updateCells hw).next p) e with hne | hne
    · exact Cells.seek_eq_next hne he
    · rw [Cells.seek_of_le hne]
      exact (Cells.next_eq (by omega) (by omega)).symm

/-! ## `insert` -/

/-- The bytes from `p` up to `q` were set. A line that is left in the middle is
as fine as the rest of the access, and the other lines are as before. -/
structure Filled (setFn : Option β → β) (d d' : Pages β) (p q e : Nat) : Prop where
  wf : d'.WF
  lt : p < q
  le : q ≤ e
  get : ∀ b, d'.get b = if p ≤ b ∧ b < q then some (setFn (d.get b)) else d.get b
  grain : q < e → 512 ∣ q ∨ Chunk.Grain q e (d'.lineAt q).lgGrainsize
  lines : ∀ a, (∀ c, p ≤ c → c < q → ¬ SameLine a c) → d'.lineAt a = d.lineAt a
  pages : ∀ i, (d i).isSome = true → (d' i).isSome = true

theorem Filled.trans {d₁ d₂ : Pages β} {p q r e : Nat} (h₁ : Filled setFn d d₁ p q e)
    (h₂ : Filled setFn d₁ d₂ q r e) : Filled setFn d d₂ p r e := by
  have hlt₁ := h₁.lt
  have hlt₂ := h₂.lt
  refine ⟨h₂.wf, by omega, h₂.le, fun b => ?_, h₂.grain, fun a ha => ?_,
    fun i hi => h₂.pages i (h₁.pages i hi)⟩
  · rw [h₂.get, h₁.get]
    split_ifs <;> first | rfl | omega
  · rw [h₂.lines a fun c hc hc' => ha c (by omega) hc',
      h₁.lines a fun c hc hc' => ha c hc (by omega)]

/-- The grain of the line at `p` when `insert` sets its entries. -/
def insertGrain (d : Pages β) (p e : Nat) : Nat :=
  min (d.lineAt p).lgGrainsize (Chunk.upTo p e).getLgGrainsize

/-- The entry that `insert`, started at `p`, goes by within the line of `p`. -/
def insertPrevious (d : Pages β) (p e : Nat) : Option β :=
  (d.lineAt p).previous p (insertGrain d p e)

/-- Byte `b` is set only because its entry, and those before it up to the first
one, are invalid or the same as `insertPrevious`. -/
def SwallowedFrom (key : β → κ) (d : Pages β) (p e b : Nat) : Prop :=
  SameLine b p ∧ b < e ∧ p + 2 ^ insertGrain d p e ≤ b ∧
    ∀ c, p + 2 ^ insertGrain d p e ≤ c → c ≤ b →
    Line.goesOn key (insertPrevious d p e) (d.get c) = true

/-- One line. -/
theorem insertLine_spec (hw : d.WF) (key : β → κ) (setFn : Option β → β) {p e : Nat} (hpe : p < e) :
    ∃ l' q, (d.lineAt p).insert key setFn (.upTo p e) ((d.lineAt p).getIdx (byte p)) =
    (l', .upTo q e) ∧
      Filled setFn d (d.setLine p l') p q e ∧ q ≤ lineEnd p ∧ p + 2 ^ insertGrain d p e ≤ q ∧
      (∀ b, p ≤ b → b < q → d.get b = d.get p ∨ SwallowedFrom key d p e b) ∧
      (q < e → q < lineEnd p → Line.goesOn key (insertPrevious d p e) (d.get q) = false) := by
  have hwl : (d.lineAt p).WF := hw.getD p
  obtain ⟨l', q, heq, hins⟩ := hwl.insert_spec hpe key setFn
  replace hins : Line.Inserted key setFn (insertPrevious d p e) (insertGrain d p e)
    (d.lineAt p) l' p q e := hins
  have hgr : Chunk.Grain p e (insertGrain d p e) :=
    (Chunk.grain_getLgGrainsize (Nat.le_of_lt hpe)).mono (Nat.min_le_right _ _)
  have hget : ∀ b, SameLine b p → d.get b = (d.lineAt p).shadow b := fun b hb => by
    rw [Pages.get_eq, Pages.lineAt_congr hb]
  have hlt := hins.lt
  have hline := hins.leLine
  have hstep : p + 2 ^ insertGrain d p e ≤ q := by
    obtain ⟨k, hk⟩ := hgr.start
    obtain ⟨m, hm⟩ := hins.dvd
    have hkm : k < m := by
      by_contra hn
      have := Nat.mul_le_mul_left (2 ^ insertGrain d p e) (Nat.not_lt.1 hn)
      omega
    have := Nat.mul_le_mul_left (2 ^ insertGrain d p e) (Nat.succ_le_of_lt hkm)
    rw [Nat.mul_succ] at this
    omega
  refine ⟨l', q, heq, ⟨hw.setLine hins.wf, hlt, hins.le, fun b => ?_, fun hq => ?_, fun a ha => ?_,
    fun i hi => Pages.page_setLine _ _ _ hi⟩, hline, hstep, fun b h₁ h₂ => ?_, fun h₁ h₂ => ?_⟩
  · by_cases hb : SameLine b p
    · rw [Pages.get_setLine_self hb, hins.shadow b hb, hget b hb]
    · rw [Pages.get_setLine_of_ne hb, if_neg]
      intro ⟨h₁, h₂⟩
      exact hb (sameLine_of_lt h₁ (by omega))
  · rcases Nat.lt_or_ge q (lineEnd p) with hql | hql
    · have hsame : SameLine q p := sameLine_of_lt (by omega) hql
      rw [Pages.lineAt_setLine_self hsame, hins.grain]
      exact .inr ⟨hgr.le, hins.dvd, fun h => hgr.stop (by rwa [lineEnd_eq hsame] at h)⟩
    · left
      rw [Nat.le_antisymm hline hql]
      exact dvd_nextMultiple p
  · exact Pages.lineAt_setLine_of_ne (fun h => ha p (Nat.le_refl _) hlt h) l'
  · have hb : SameLine b p := sameLine_of_lt h₁ (by omega)
    rcases Nat.lt_or_ge b (p + 2 ^ insertGrain d p e) with hbg | hbg
    · left
      rw [hget b hb, hget p rfl]
      have hgrain : b / 2 ^ insertGrain d p e = p / 2 ^ insertGrain d p e :=
        (Line.grain_iff hgr.start).2 ⟨h₁, hbg⟩
      have hdvd : 2 ^ insertGrain d p e ∣ 2 ^ (d.lineAt p).lgGrainsize :=
        Nat.pow_dvd_pow 2 (Nat.min_le_left _ _)
      exact hwl.shadow_grain hb (div_eq_of_dvd hdvd hgrain)
    · right
      have hle := hins.le
      refine ⟨hb, by omega, hbg, fun c hc hcb => ?_⟩
      rw [hget c (sameLine_of_lt (Nat.le_trans (Nat.le_add_right _ _) hc) (by omega))]
      exact hins.goes c hc (by omega)
  · rw [hget q (sameLine_of_lt (by omega) h₂)]
    exact hins.stops h₁ h₂

/-- A line that need not be refined: the previous entry is that of `p`. -/
theorem insertPrevious_eq (hw : d.WF) {p e : Nat} (hpe : p < e)
    (h : 512 ∣ p ∨ Chunk.Grain p e (d.lineAt p).lgGrainsize) : insertPrevious d p e = d.get p := by
  have hwl : (d.lineAt p).WF := hw.getD p
  unfold insertPrevious
  rw [Pages.get_eq]
  rcases h with h | h
  · exact Line.previous_of_dvd h _ _
  · rcases Nat.eq_zero_or_pos p with rfl | hpos
    · exact Line.previous_of_dvd (Nat.dvd_zero _) _ _
    · have hle := Chunk.le_getLgGrainsize hpos (Nat.le_of_lt hpe) h
      rw [insertGrain, Nat.min_eq_left hle]
      exact hwl.previous_eq p

/-- The lines after the first one that the access set, or the rest of one that
is as fine as the access. -/
theorem insertLoop_spec (key : β → κ) (setFn : Option β → β) (prev : Option β) {e : Nat} :
    ∀ (n : Nat) {p a : Nat} {d : Pages β}, d.WF → e - p ≤ n → p < e →
      512 ∣ p ∨ Chunk.Grain p e (d.lineAt p).lgGrainsize → Line.goesOn key prev (d.get p) = true →
      ∃ d' it q, insertLoop key setFn prev n d ⟨.upTo p e, a⟩ = (d', it) ∧ it.accessed = .upTo q e ∧
      (q < e → it.entry = q) ∧
        Filled setFn d d' p q e ∧ (∀ b, p ≤ b → b < q → Line.goesOn key prev (d.get b) = true) ∧
        (q < e → Line.goesOn key prev (d.get q) = false) := by
  intro n
  induction n with
  | zero => intro p a d _ hn hp; omega
  | succ n ih =>
    intro p a d hw hn hp hfresh hprev
    obtain ⟨l', q, heq, hfill, hline, hstep, hin, hstop⟩ := insertLine_spec hw key setFn hp
    have hlt := hfill.lt
    -- The line needs no refinement, so that the previous entry is that of `p`.
    have hprevious := insertPrevious_eq hw hp hfresh
    have hgo : ∀ b, p ≤ b → b < q → Line.goesOn key prev (d.get b) = true := fun b h₁ h₂ => by
      rcases hin b h₁ h₂ with h | h
      · rw [h]
        exact hprev
      · have := h.2.2.2 b h.2.2.1 (Nat.le_refl _)
        rw [hprevious] at this
        exact Line.goesOn_trans hprev this
    unfold insertLoop
    have hheq : Line.insert key setFn ((d.getLine p).getD {}) (.upTo p e)
      (((d.getLine p).getD {}).getIdx (byte p)) = (l', .upTo q e) := heq
    simp only [Chunk.upTo_addr, hheq, Chunk.isEmpty_upTo]
    have hkeep : (d.setLine p l').get q = d.get q := by
      rw [hfill.get, if_neg (by omega)]
    split
    · next he => exact ⟨_, _, q, rfl, rfl, fun h => by omega, hfill, hgo, fun h => by omega⟩
    · next he =>
      rw [hkeep]
      split
      · next hgq =>
        obtain ⟨d', it, r, h₁, h₂, h₃, hfill', hgo', hstop'⟩ :=
          ih (a := q) hfill.wf (by omega) (by omega)
            (hfill.grain (by omega)) (by rw [hkeep]; exact hgq)
        have hlt' := hfill'.lt
        refine ⟨d', it, r, h₁, h₂, h₃, hfill.trans hfill', fun b hb₁ hb₂ => ?_, fun hr => ?_⟩
        · rcases Nat.lt_or_ge b q with hbq | hbq
          · exact hgo b hb₁ hbq
          · have := hgo' b hbq hb₂
            rwa [hfill.get, if_neg (by omega)] at this
        · have := hstop' hr
          rwa [hfill.get, if_neg (by omega)] at this
      · next hgq => exact ⟨_, _, q, rfl, rfl, fun _ => rfl, hfill, hgo, fun _ => by simpa using hgq⟩

/-- What `insert` did: it set the bytes from `p` up to a valid entry that is
not the same as that of `p`, those it goes on over and those it swallows. -/
structure Inserts (key : β → κ) (setFn : Option β → β) (d d' : Pages β) (p q e : Nat) : Prop
    extends Filled setFn d d' p q e where
  goes : ∀ b, p ≤ b → b < q → Line.goesOn key (d.get p) (d.get b) = true ∨ SwallowedFrom key d p e b
  swallows : ∀ b, SwallowedFrom key d p e b → b < q
  stops : q < e → Line.goesOn key (d.get p) (d.get q) = false

/-- **Insertion.** -/
theorem insert_spec (hw : d.WF) (key : β → κ) (setFn : Option β → β) {p e : Nat} (hpe : p < e) :
    ∃ d' it q, insert key setFn d ⟨.upTo p e, p⟩ = (d', it) ∧ it.accessed = .upTo q e ∧
    (q < e → it.entry = q) ∧
      Inserts key setFn d d' p q e := by
  obtain ⟨n, hn⟩ : ∃ n, e - p = n + 1 := ⟨e - p - 1, by omega⟩
  obtain ⟨l', q, heq, hfill, hline, hstep, hin, hstop⟩ := insertLine_spec hw key setFn hpe
  have hlt := hfill.lt
  have hgo :
    ∀ b, p ≤ b → b < q → Line.goesOn key (d.get p) (d.get b) = true ∨ SwallowedFrom key d p e b :=
    fun b h₁ h₂ => (hin b h₁ h₂).imp_left fun h => by rw [h]; exact Line.goesOn_self _
  have hswallow : ∀ b, SwallowedFrom key d p e b → b < q := fun b ⟨hs, hbe, hge, hall⟩ => by
    by_contra hbq
    have := hstop (by omega) (Nat.lt_of_le_of_lt (Nat.not_lt.1 hbq) hs.lt_lineEnd)
    rw [hall q hstep (Nat.not_lt.1 hbq)] at this
    cases this
  have hkeep : (d.setLine p l').get q = d.get q := by
    rw [hfill.get, if_neg (by omega)]
  have hheq : Line.insert key setFn ((d.getLine p).getD {}) (.upTo p e)
    (((d.getLine p).getD {}).getIdx (byte p)) = (l', .upTo q e) := heq
  unfold insert
  rw [show (Chunk.upTo p e).size = n + 1 from hn]
  unfold insertLoop
  simp only [Chunk.upTo_addr, hheq, Chunk.isEmpty_upTo]
  split
  · next he => exact ⟨_, _, q, rfl, rfl, fun h => by omega, hfill, hgo, hswallow, fun h => by omega⟩
  · next he =>
    rw [hkeep]
    split
    · next hgq =>
      obtain ⟨d', it, r, h₁, h₂, h₃, hfill', hgo', hstop'⟩ :=
        insertLoop_spec key setFn (d.get p) n (p := q) (a := q) hfill.wf
          (by omega) (by omega) (hfill.grain (by omega)) (by rw [hkeep]; exact hgq)
      have hlt' := hfill'.lt
      refine ⟨d', it, r, h₁, h₂, h₃, hfill.trans hfill', fun b hb₁ hb₂ => ?_,
        fun b hb => ?_, fun hr => ?_⟩
      · rcases Nat.lt_or_ge b q with hbq | hbq
        · exact hgo b hb₁ hbq
        · have := hgo' b hbq hb₂
          rw [hfill.get, if_neg (by omega)] at this
          exact .inl this
      · have := hswallow b hb
        omega
      · have := hstop' hr
        rwa [hfill.get, if_neg (by omega)] at this
    · next hgq =>
        exact ⟨_, _, q, rfl, rfl, fun _ => rfl, hfill, hgo, hswallow, fun _ => by simpa using hgq⟩

/-! ## `clear` -/

theorem clearLoop_spec {e : Nat} : ∀ (n : Nat) {p : Nat} {d : Pages β}, d.WF → e - p ≤ n → p < e →
    (clearLoop n d (.upTo p e)).WF ∧
      ∀ b, (clearLoop n d (.upTo p e)).get b = if p ≤ b ∧ b < e then none else d.get b := by
  intro n
  induction n with
  | zero => intro p d _ hn hp; omega
  | succ n ih =>
    intro p d hw hn hp
    -- No byte before the first line with a valid entry has one.
    have hnone : ∀ b, p ≤ b → b < (d.queryCells hw).seek d.used e p → b < e →
        d.get b = none := fun b h₁ h₂ h₃ => by
      have := Cells.not_stop_of_lt_seek (QueryIterator.used_const hw) h₁ h₂ h₃
      cases hg : d.get b with
      | none => rfl
      | some x =>
        rw [QueryIterator.used_of_get hg] at this
        cases this
    have hdone : e ≤ (d.queryCells hw).seek d.used e p →
        d.WF ∧ ∀ b, d.get b = if p ≤ b ∧ b < e then none else d.get b := fun he => by
      refine ⟨hw, fun b => ?_⟩
      split
      · next hb => exact hnone b hb.1 (by omega) hb.2
      · rfl
    unfold clearLoop
    obtain ⟨p', h₁, h₂, h₃, h₄, -⟩ :=
      QueryIterator.nextPage_spec hw (e - p) (p := p) (Nat.le_refl _) hp
    have h₁' : QueryIterator.nextPage d (Chunk.upTo p e).size (.upTo p e) = .upTo p' e := h₁
    simp only [h₁', Chunk.isEmpty_upTo]
    split
    · next he =>
      rw [Cells.seek_of_le he] at h₄
      exact hdone (h₄ ▸ he)
    · next he =>
      have h₅ := QueryIterator.nextLine_spec hw (e - p') (Nat.le_refl _) (by omega) (h₃ (by omega))
      have h₅' : QueryIterator.nextLine d (Chunk.upTo p' e).size (.upTo p' e) =
          .upTo ((d.queryCells hw).seek d.used e p) e := by
        rw [← h₄]
        exact h₅
      simp only [h₅', Chunk.isEmpty_upTo]
      split
      · next hs => exact hdone hs
      · next hs =>
        have hle : p ≤ (d.queryCells hw).seek d.used e p := Cells.le_seek
        have hused : d.used ((d.queryCells hw).seek d.used e p) = true := Cells.stop_seek (by omega)
        generalize (d.queryCells hw).seek d.used e p = q at hle hused hnone hs ⊢
        obtain ⟨l, hl⟩ : ∃ l, d.getLine q = some l := by
          unfold Pages.used at hused
          cases hl : d.getLine q with
          | none => rw [hl] at hused; cases hused
          | some l => exact ⟨l, rfl⟩
        obtain ⟨l', r, hc, hcl⟩ := (hw q l hl).clear_spec (show q < e by omega)
        have hlt := hcl.lt
        simp only [Chunk.upTo_addr, hl, hc, Chunk.isEmpty_upTo]
        have hget : ∀ b, (d.setLine q l').get b = if SameLine b q ∧ q ≤ b ∧
            b < e then none else d.get b := fun b => by
          by_cases hb : SameLine b q
          · rw [Pages.get_setLine_self hb, hcl.shadow b hb]
            simp only [hb, true_and]
            rw [Pages.get_eq, Pages.lineAt_congr hb]
            unfold Pages.lineAt
            rw [hl]
            rfl
          · rw [Pages.get_setLine_of_ne hb, if_neg fun h => hb h.1]
        -- What is left of the range starts at `r`.
        have hrest : ∀ b, (if r ≤ b ∧ b < e then none else (d.setLine q l').get b) = if p ≤ b ∧
            b < e then none else d.get b := by
          intro b
          rw [hget]
          by_cases hb : p ≤ b ∧ b < e
          · rw [if_pos hb]
            rcases Nat.lt_or_ge b q with hbq | hbq
            · split_ifs <;> first | rfl | exact hnone b hb.1 hbq hb.2
            · by_cases hbr : r ≤ b
              · rw [if_pos ⟨hbr, hb.2⟩]
              · have hs : SameLine b q := sameLine_of_lt hbq (by have := hcl.leLine; omega)
                rw [if_neg (by omega), if_pos ⟨hs, hbq, hb.2⟩]
          · rw [if_neg hb, if_neg (by omega), if_neg (by omega)]
        split
        · next he' =>
          refine ⟨hw.setLine hcl.wf, fun b => ?_⟩
          rw [← hrest, if_neg (by omega)]
        · next he' =>
          obtain ⟨hw', hget'⟩ := ih (hw.setLine hcl.wf) (p := r) (by omega) (by omega)
          refine ⟨hw', fun b => ?_⟩
          rw [hget', hrest]

/-- The bytes of the range have no entry any more. -/
theorem clear_spec (hw : d.WF) (p e : Nat) :
    (clear d (.upTo p e)).WF ∧ ∀ b, (clear d (.upTo p e)).get b = if p ≤ b ∧
    b < e then none else d.get b := by
  unfold clear
  simp only [Chunk.isEmpty_upTo]
  split
  · next h =>
    refine ⟨hw, fun b => ?_⟩
    rw [if_neg (by omega)]
  · next h => exact clearLoop_spec _ hw (Nat.le_refl _) (by omega)

end UpdateIterator

end Cilksan
