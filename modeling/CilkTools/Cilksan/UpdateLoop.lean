/-
The loop in which a range is updated (`update` and the functions like it in
`SimpleShadowMem`): entries that are invalid or in series are replaced, the
others are passed over. `visit` is what a function does besides.

`Walk` is such a run, one stretch for each turn of the loop. It replaces the
bytes that are `Replaced` and passes over the others.
-/
import CilkTools.Cilksan.UpdateSpec

namespace Cilksan

/-- What one turn of a loop handles: the bytes from `start` up to `stop`, and
the entry found at `start`. -/
structure Stretch (β : Type u) where
  start : Nat
  prev : Option β
  stop : Nat
  deriving DecidableEq, Repr

/-- Invalid, or not parallel to the current strand. -/
def inSeries {β : Type u} (par : β → Bool) (o : Option β) : Bool := o.all fun x => !par x

namespace UpdateIterator

section

variable {β : Type u} {κ : Type v} [DecidableEq κ] (key : β → κ) (par : β → Bool)
  (setFn : Option β → β)
variable {σ : Type} (visit : Stretch β → σ → σ)

def updateLoop : Nat → Pages β → UpdateIterator → σ → Pages β × σ
  | 0, d, _, s => (d, s)
  | n + 1, d, it, s =>
    if it.isEnd then (d, s)
    else
      let prev := it.get d
      let (d', it') := if inSeries par prev then it.insert key setFn d else (d, it.next key d)
      updateLoop n d' it' (visit ⟨it.accessed.addr, prev, it'.accessed.addr⟩ s)

def updateRange (d : Pages β) (accessed : Chunk) (s : σ) : Pages β × σ :=
  updateLoop key par setFn visit accessed.size d (mk' accessed) s

end

/-! ## Bytes that are replaced -/

section

variable {β : Type u} {κ : Type v} [DecidableEq κ] {key : β → κ} {par : β → Bool}
  {setFn : Option β → β}
variable {d d' d'' : Pages β} {p q e b : Nat}

/-- Byte `b` is set by the insertion that starts at the first byte of its line
to be replaced, whatever its own entry is. -/
def Swallowed (key : β → κ) (par : β → Bool) (d : Pages β) (p e b : Nat) : Prop :=
  ∃ a, p ≤ a ∧ inSeries par (d.get a) = true ∧
    (∀ c, p ≤ c → c < a → SameLine c a → inSeries par (d.get c) = false) ∧ SwallowedFrom key d a e b

def Replaced (key : β → κ) (par : β → Bool) (d : Pages β) (p e b : Nat) : Prop :=
  inSeries par (d.get b) = true ∨ Swallowed key par d p e b

/-- Only the lines matter. -/
theorem Swallowed.congr (hl : ∀ b, d'.lineAt b = d.lineAt b) : Swallowed key par d' p e b ↔
    Swallowed key par d p e b := by
  have hget : d'.get = d.get := funext fun b => by rw [Pages.get_eq, Pages.get_eq, hl]
  unfold Swallowed SwallowedFrom insertPrevious insertGrain
  simp only [hl, hget]

theorem Replaced.congr (hl : ∀ b, d'.lineAt b = d.lineAt b) : Replaced key par d' p e b ↔
    Replaced key par d p e b := by
  unfold Replaced
  rw [Swallowed.congr hl, Pages.get_eq, Pages.get_eq, hl]

theorem SwallowedFrom.lt (h : SwallowedFrom key d p e b) : p < b := by
  have := Nat.two_pow_pos (insertGrain d p e)
  have := h.2.2.1
  omega

theorem inSeries_of_goesOn (hkey : ∀ x y, key x = key y → par x = par y) {o o' : Option β}
    (hs : inSeries par o = true) (h : Line.goesOn key o o' = true) : inSeries par o' = true := by
  cases o' with
  | none => rfl
  | some y =>
    cases o with
    | none => cases h
    | some x =>
      simp only [Line.goesOn, Option.any_some, decide_eq_true_eq] at h
      simp only [inSeries, Option.all_some] at hs ⊢
      rwa [← hkey x y h]

theorem inSeries_of_sameEntry (hkey : ∀ x y, key x = key y → par x = par y) {o o' : Option β}
    (h : sameEntry key o o' = true) : inSeries par o' = inSeries par o := by
  unfold sameEntry at h
  cases o with
  | none => cases o' <;> cases h
  | some x =>
    cases o' with
    | none => cases h
    | some y =>
      simp only [Option.any_some, decide_eq_true_eq] at h
      simp only [inSeries, Option.all_some]
      rw [hkey x y h]

/-- A line that need not be refined swallows only what is in series as well. -/
theorem SwallowedFrom.get_inSeries (hkey : ∀ x y, key x = key y → par x = par y)
    (h : SwallowedFrom key d p e b)
    (hprev : insertPrevious d p e = d.get p) (hs : inSeries par (d.get p) = true) :
    inSeries par (d.get b) = true := by
  have hgo := h.2.2.2 b h.2.2.1 (Nat.le_refl _)
  rw [hprev] at hgo
  exact inSeries_of_goesOn hkey hs hgo

/-- It depends on the line and on the entries after `p`. -/
theorem SwallowedFrom.congr (hl : d'.lineAt p = d.lineAt p) (hget : ∀ c, p < c → d'.get c = d.get c)
    (h : SwallowedFrom key d p e b) : SwallowedFrom key d' p e b := by
  have hg : insertGrain d' p e = insertGrain d p e := by
    unfold insertGrain
    rw [hl]
  have hp : insertPrevious d' p e = insertPrevious d p e := by
    unfold insertPrevious
    rw [hl, hg]
  obtain ⟨h₁, h₂, h₃, h₄⟩ := h
  refine ⟨h₁, h₂, hg ▸ h₃, fun c hc hcb => ?_⟩
  have hpos := Nat.two_pow_pos (insertGrain d' p e)
  rw [hp, hget c (by omega)]
  exact h₄ c (hg ▸ hc) hcb

/-- A line as fine as the range is swallowed in only what is in series: the
insertion starts at an entry, which then need not be split. -/
theorem inSeries_of_swallowed (hw : d.WF) (hkey : ∀ x y, key x = key y → par x = par y)
    (h : Swallowed key par d q e b)
    (hl : SameLine q b) (hg : Chunk.Grain q e (d.lineAt q).lgGrainsize) :
    inSeries par (d.get b) = true := by
  obtain ⟨a, ha, hs, hmin, hf⟩ := h
  have hab := hf.lt
  have hbe := hf.2.1
  have hqa : SameLine q a := hl.trans hf.1
  have hdvd : 2 ^ (d.lineAt q).lgGrainsize ∣ a := by
    by_contra hnd
    obtain ⟨hsame, hcell⟩ :=
      hw.get_div_mul (congrArg Line.lgGrainsize (Pages.lineAt_congr (d := d) hqa.symm))
    have hle := Nat.div_mul_le_self a (2 ^ (d.lineAt q).lgGrainsize)
    have hlt : a / 2 ^ (d.lineAt q).lgGrainsize * 2 ^ (d.lineAt q).lgGrainsize < a :=
      Nat.lt_of_le_of_ne hle fun he => hnd ⟨_, he.symm.trans (Nat.mul_comm _ _)⟩
    have hge : q ≤ a / 2 ^ (d.lineAt q).lgGrainsize * 2 ^ (d.lineAt q).lgGrainsize := by
      have hmul := Nat.mul_le_mul_right (2 ^ (d.lineAt q).lgGrainsize)
        (Nat.div_le_div_right (c := 2 ^ (d.lineAt q).lgGrainsize) ha)
      rwa [Nat.div_mul_cancel hg.start] at hmul
    have hmin' := hmin _ hge hlt hsame
    rw [hcell, hs] at hmin'
    cases hmin'
  refine hf.get_inSeries hkey (insertPrevious_eq hw (by omega) (.inr ?_)) hs
  rw [Pages.lineAt_congr hqa.symm]
  exact ⟨hg.le, hdvd, fun he => hg.stop (by rwa [lineEnd_eq hqa])⟩

/-! ## One turn of the loop -/

/-- Passing over an entry. -/
theorem Skips.get_inSeries (hkey : ∀ x y, key x = key y → par x = par y) (h : Skips key d p q e)
    (hp : inSeries par (d.get p) = false) (h₁ : p ≤ b) (h₂ : b < q) (h₃ : b < e) :
    inSeries par (d.get b) = false := by
  rw [inSeries_of_sameEntry hkey (h.same b h₁ h₂ h₃), hp]

theorem Skips.not_replaced (hkey : ∀ x y, key x = key y → par x = par y) (h : Skips key d p q e)
    (hp : inSeries par (d.get p) = false) (h₁ : p ≤ b) (h₂ : b < q) (h₃ : b < e) :
    ¬ Replaced key par d p e b := by
  rintro (hb | ⟨a, ha, hs, -, hf⟩)
  · rw [h.get_inSeries hkey hp h₁ h₂ h₃] at hb
    cases hb
  · have hab := hf.lt
    rw [h.get_inSeries hkey hp ha (by omega) (by omega)] at hs
    cases hs

theorem Skips.replaced_iff (hkey : ∀ x y, key x = key y → par x = par y) (h : Skips key d p q e)
    (hp : inSeries par (d.get p) = false) : Replaced key par d p e b ↔
    Replaced key par d q e b := by
  have hlt := h.lt
  refine or_congr_right ⟨?_, ?_⟩
  · intro ⟨a, ha, hs, hmin, hf⟩
    have hab := hf.lt
    have hbe := hf.2.1
    refine ⟨a, ?_, hs, fun c hc => hmin c (by omega), hf⟩
    by_contra hn
    rw [h.get_inSeries hkey hp ha (by omega) (by omega)] at hs
    cases hs
  · intro ⟨a, ha, hs, hmin, hf⟩
    have hab := hf.lt
    have hbe := hf.2.1
    refine ⟨a, by omega, hs, fun c hc hca hl => ?_, hf⟩
    rcases Nat.lt_or_ge c q with hcq | hcq
    · exact h.get_inSeries hkey hp hc hcq (by omega)
    · exact hmin c hcq hca hl

theorem Inserts.replaced (hkey : ∀ x y, key x = key y → par x = par y)
    (h : Inserts key setFn d d' p q e)
    (hp : inSeries par (d.get p) = true) (h₁ : p ≤ b) (h₂ : b < q) : Replaced key par d p e b := by
  rcases h.goes b h₁ h₂ with hg | hf
  · exact .inl (inSeries_of_goesOn hkey hp hg)
  · exact .inr ⟨p, Nat.le_refl _, hp, fun c hc hcp => by omega, hf⟩

/-- An insertion that gets to another line replaces its first byte. -/
theorem Inserts.inSeries_line (hkey : ∀ x y, key x = key y → par x = par y)
    (h : Inserts key setFn d d' p q e)
    (hp : inSeries par (d.get p) = true) {a c : Nat} (hc : p ≤ c) (hcq : c < q) (hca : SameLine c a)
    (hpa : ¬ SameLine p a) :
    ∃ ℓ, 512 ∣ ℓ ∧ p < ℓ ∧ ℓ ≤ c ∧ SameLine ℓ a ∧ inSeries par (d.get ℓ) = true := by
  have hca' : c / 512 = a / 512 := hca
  have hpa' : p / 512 ≠ a / 512 := hpa
  have hle : c / 512 * 512 ≤ c := Nat.div_mul_le_self c 512
  have hsame : c / 512 * 512 / 512 = c / 512 := Nat.mul_div_cancel _ (by decide)
  have hlt : p < c / 512 * 512 := by omega
  refine ⟨c / 512 * 512, ⟨c / 512, Nat.mul_comm _ _⟩, hlt, hle, hsame.trans hca', ?_⟩
  rcases h.goes _ (Nat.le_of_lt hlt) (by omega) with hg | hf
  · exact inSeries_of_goesOn hkey hp hg
  · have hf' : c / 512 * 512 / 512 = p / 512 := hf.1
    omega

theorem Inserts.replaced_iff (hw : d.WF) (hkey : ∀ x y, key x = key y → par x = par y)
    (h : Inserts key setFn d d' p q e)
    (hp : inSeries par (d.get p) = true) (hb : q ≤ b) : Replaced key par d p e b ↔
    Replaced key par d' q e b := by
  have hlt := h.lt
  have hget : ∀ c, q ≤ c → d'.get c = d.get c := fun c hc => by
    rw [h.get, if_neg (by omega)]
  -- A line that the insertion did not get to.
  have hfar : ∀ a, q ≤ a → (∀ c, p ≤ c → c < q → ¬ SameLine a c) →
      (SwallowedFrom key d a e b ↔ SwallowedFrom key d' a e b) := fun a ha hn =>
    ⟨.congr (h.lines a hn) fun c hc => hget c (by omega),
      .congr (h.lines a hn).symm fun c hc => (hget c (by omega)).symm⟩
  unfold Replaced
  rw [hget b hb]
  constructor
  · rintro (hs | ⟨a, ha, hs, hmin, hf⟩)
    · exact .inl hs
    · have hab := hf.lt
      have hba : SameLine b a := hf.1
      rcases Nat.lt_or_ge a q with haq | haq
      · by_cases hpa : SameLine p a
        · -- The insertion swallowed `b` itself.
          have : a = p := by
            by_contra hne
            rw [hmin p (Nat.le_refl _) (by omega) hpa] at hp
            cases hp
          subst this
          have := h.swallows b hf
          omega
        · obtain ⟨ℓ, hd, hpℓ, hℓa, hsame, hℓ⟩ := h.inSeries_line hkey hp ha haq rfl hpa
          have : a = ℓ := by
            by_contra hne
            rw [hmin ℓ (by omega) (by omega) hsame] at hℓ
            cases hℓ
          subst this
          exact .inl (hf.get_inSeries hkey
            (insertPrevious_eq hw (by have := hf.2.1; omega) (.inl hd)) hs)
      · refine .inr ⟨a, haq, by rwa [hget a haq], fun c hc hca hl => ?_,
          (hfar a haq fun c hc hcq hl => ?_).1 hf⟩
        · rw [hget c hc]
          exact hmin c (by omega) hca hl
        · by_cases hpa : SameLine p a
          · rw [hmin p (Nat.le_refl _) (by omega) hpa] at hp
            cases hp
          · obtain ⟨ℓ, -, hpℓ, hℓc, hsame, hℓ⟩ := h.inSeries_line hkey hp hc hcq hl.symm hpa
            rw [hmin ℓ (by omega) (by omega) hsame] at hℓ
            cases hℓ
  · rintro (hs | ⟨a, ha, hs, hmin, hf⟩)
    · exact .inl hs
    · have hab := hf.lt
      have hbe := hf.2.1
      rw [hget a ha] at hs
      by_cases hnear : ∃ c, p ≤ c ∧ c < q ∧ SameLine a c
      · -- The line is as fine as the rest of the range.
        obtain ⟨c, hc, hcq, hac⟩ := hnear
        have hac' : a / 512 = c / 512 := hac
        have hqa : SameLine q a := by
          unfold SameLine
          omega
        have hq512 : ¬ 512 ∣ q := by
          have hqa' : q / 512 = a / 512 := hqa
          omega
        have hgrain := (h.grain (by omega)).resolve_left hq512
        refine .inl ?_
        rw [← hget b hb]
        exact inSeries_of_swallowed h.wf hkey ⟨a, ha, by rwa [hget a ha], hmin, hf⟩
          (hqa.trans hf.1.symm) hgrain
      · refine .inr ⟨a, by omega, hs, fun c hc hca hl => ?_,
          (hfar a ha fun c hc hcq hl => hnear ⟨c, hc, hcq, hl⟩).2 hf⟩
        rcases Nat.lt_or_ge c q with hcq | hcq
        · exact absurd ⟨c, hc, hcq, hl.symm⟩ hnear
        · rw [← hget c hcq]
          exact hmin c hcq hca hl

end

/-! ## Runs of the loop -/

section

variable {β : Type u} {κ : Type v} [DecidableEq κ] (key : β → κ) (par : β → Bool)
  (setFn : Option β → β)

/-- The loop went from `d` to the last table over these stretches, the range
ending at `e`. -/
inductive Walk (e : Nat) : Pages β → Nat → List (Stretch β) → Pages β → Prop
  | done {d p} : e ≤ p → Walk e d p [] d
  | insert {d p xs d''} (d' q) : p < e → inSeries par (d.get p) = true →
      Inserts key setFn d d' p q e → Walk e d' q xs d'' → Walk e d p (⟨p, d.get p, q⟩ :: xs) d''
  | skip {d p xs d''} (q) : p < e → inSeries par (d.get p) = false → Skips key d p q e →
      Walk e d q xs d'' → Walk e d p (⟨p, d.get p, q⟩ :: xs) d''

variable {key par setFn} {d d' : Pages β} {p e : Nat} {xs : List (Stretch β)}

theorem Filled.mapped {q : Nat} (h : Filled setFn d d' p q e) (hm : d.Mapped p e) : d'.Mapped q e :=
  fun b h₁ h₂ => h.pages _ (hm b (by have := h.lt; omega) h₂)

theorem updateLoop_walk (key : β → κ) (par : β → Bool) (setFn : Option β → β) {e : Nat} :
    ∀ (n : Nat) {p a : Nat} {d : Pages β},
    d.WF → d.Mapped p e ∨ (∀ x, par x = false) → e - p ≤ n → (p < e → a = p) →
    ∃ xs d', Walk key par setFn e d p xs d' ∧ ∀ {σ : Type} (visit : Stretch β → σ → σ) (s : σ),
      updateLoop key par setFn visit n d ⟨.upTo p e, a⟩ s =
      (d', xs.foldl (fun s x => visit x s) s) := by
  intro n
  induction n with
  | zero =>
    intro p a d _ _ hn _
    exact ⟨[], d, .done (by omega), fun visit s => rfl⟩
  | succ n ih =>
    intro p a d hw hm hn ha
    rcases Nat.lt_or_ge p e with hp | hp
    · obtain rfl := ha hp
      have hend : isEnd ⟨.upTo a e, a⟩ = false := by
        unfold isEnd
        rw [← Bool.not_eq_true, Chunk.isEmpty_upTo]
        omega
      have hget : get d ⟨.upTo a e, a⟩ = d.get a := by
        unfold get
        rw [hend]
        rfl
      cases hs : inSeries par (d.get a) with
      | true =>
        obtain ⟨d₁, it, q, h₁, h₂, h₃, hins⟩ := insert_spec hw key setFn hp
        have hlt := hins.lt
        have hm₁ : d₁.Mapped q e ∨ ∀ x, par x = false := hm.imp_left hins.toFilled.mapped
        obtain ⟨xs, d', hwalk, heq⟩ := ih hins.wf hm₁ (by omega) h₃
        refine ⟨_, d', .insert d₁ q hp hs hins hwalk, fun visit s => ?_⟩
        unfold updateLoop
        simp only [hend, Bool.false_eq_true, if_false, hget, hs, if_true, h₁]
        obtain ⟨acc, ent⟩ := it
        cases h₂
        exact heq visit _
      | false =>
        obtain ⟨x, hx⟩ : ∃ x, d.get a = some x := by
          cases hx : d.get a with
          | none => rw [hx] at hs; cases hs
          | some x => exact ⟨x, rfl⟩
        have hm' : d.Mapped a e := hm.resolve_right fun hn => by
          rw [hx] at hs
          simp [inSeries, hn x] at hs
        obtain ⟨it, q, h₁, h₂, h₃, hskip⟩ := next_spec hw key hp hm' (by rw [hx]; rfl)
        have hlt := hskip.lt
        obtain ⟨xs, d', hwalk, heq⟩ := ih hw (.inl fun b hb he => hm' b (by omega) he) (by omega) h₃
        refine ⟨_, d', .skip q hp hs hskip hwalk, fun visit s => ?_⟩
        unfold updateLoop
        simp only [hend, Bool.false_eq_true, if_false, hget, hs, h₁]
        obtain ⟨acc, ent⟩ := it
        cases h₂
        exact heq visit _
    · refine ⟨[], d, .done hp, fun visit s => ?_⟩
      unfold updateLoop
      have hend : isEnd ⟨.upTo p e, a⟩ = true := Chunk.isEmpty_upTo.2 hp
      rw [if_pos hend]
      rfl

/-- **The loop.** It is a walk over the range, at each stretch of which the
function does what it does besides. -/
theorem updateRange_walk (hw : d.WF) (key : β → κ) (par : β → Bool)
    (setFn : Option β → β) {p e : Nat} (hm : d.Mapped p e ∨ ∀ x, par x = false) :
    ∃ xs d', Walk key par setFn e d p xs d' ∧ ∀ {σ : Type} (visit : Stretch β → σ → σ) (s : σ),
      updateRange key par setFn visit d (.upTo p e) s = (d', xs.foldl (fun s x => visit x s) s) :=
  updateLoop_walk key par setFn _ hw hm (Nat.le_refl _) fun _ => rfl

namespace Walk

theorem wf (h : Walk key par setFn e d p xs d') (hw : d.WF) : d'.WF := by
  induction h with
  | done _ => exact hw
  | insert d₁ q _ _ hins _ ih => exact ih hins.wf
  | skip q _ _ _ _ ih => exact ih hw

theorem pages (h : Walk key par setFn e d p xs d') {i : Nat} (hi : (d i).isSome = true) :
    (d' i).isSome = true := by
  induction h with
  | done _ => exact hi
  | insert d₁ q _ _ hins _ ih => exact ih (hins.pages i hi)
  | skip q _ _ _ _ ih => exact ih hi

theorem get_of_lt (h : Walk key par setFn e d p xs d') {b : Nat} (hb : b < p ∨ e ≤ b) :
    d'.get b = d.get b := by
  induction h with
  | done _ => rfl
  | insert d₁ q _ _ hins _ ih =>
    have hlt := hins.lt
    have hle := hins.le
    rw [ih (by omega), hins.get, if_neg (by omega)]
  | skip q _ _ hskip _ ih =>
    have hlt := hskip.lt
    exact ih (by omega)

/-- The bytes that are replaced are set, and the others are as before. -/
theorem get_replaced (h : Walk key par setFn e d p xs d') (hw : d.WF)
    (hkey : ∀ x y, key x = key y → par x = par y) {b : Nat}
    (h₁ : p ≤ b) (h₂ : b < e) (hr : Replaced key par d p e b) :
    d'.get b = some (setFn (d.get b)) := by
  induction h with
  | done _ => omega
  | insert d₁ q _ hs hins hwalk ih =>
    rcases Nat.lt_or_ge b q with hbq | hbq
    · rw [hwalk.get_of_lt (.inl hbq), hins.get, if_pos ⟨h₁, hbq⟩]
    · rw [ih hins.wf hbq ((hins.replaced_iff hw hkey hs hbq).1 hr), hins.get, if_neg (by omega)]
  | skip q _ hs hskip _ ih =>
    rcases Nat.lt_or_ge b q with hbq | hbq
    · exact absurd hr (hskip.not_replaced hkey hs h₁ hbq h₂)
    · exact ih hw hbq ((hskip.replaced_iff hkey hs).1 hr)

theorem get_not_replaced (h : Walk key par setFn e d p xs d') (hw : d.WF)
    (hkey : ∀ x y, key x = key y → par x = par y)
    {b : Nat} (h₁ : p ≤ b) (hr : ¬ Replaced key par d p e b) : d'.get b = d.get b := by
  induction h with
  | done _ => rfl
  | insert d₁ q _ hs hins hwalk ih =>
    rcases Nat.lt_or_ge b q with hbq | hbq
    · exact absurd (hins.replaced hkey hs h₁ hbq) hr
    · rw [ih hins.wf hbq fun hr' => hr ((hins.replaced_iff hw hkey hs hbq).2 hr'), hins.get,
        if_neg (by omega)]
  | skip q _ hs hskip hwalk ih =>
    rcases Nat.lt_or_ge b q with hbq | hbq
    · exact hwalk.get_of_lt (.inl hbq)
    · exact ih hw hbq fun hr' => hr ((hskip.replaced_iff hkey hs).2 hr')

/-- What a stretch of the walk is: its bytes are all replaced, or none is and
they hold the same entry. -/
structure Covers (key : β → κ) (par : β → Bool) (d : Pages β) (p e : Nat)
    (x : Stretch β) : Prop where
  le : p ≤ x.start
  lt : x.start < x.stop
  lt_end : x.start < e
  prev : x.prev = d.get x.start
  replaced : inSeries par x.prev = true → x.stop ≤ e ∧ ∀ b, x.start ≤ b → b < x.stop →
    Replaced key par d p e b
  kept : inSeries par x.prev = false → ∀ b, x.start ≤ b → b < x.stop → b < e →
    ¬ Replaced key par d p e b ∧ sameEntry key x.prev (d.get b) = true

theorem covers (h : Walk key par setFn e d p xs d') (hw : d.WF)
    (hkey : ∀ x y, key x = key y → par x = par y)
    {x : Stretch β} (hx : x ∈ xs) : Covers key par d p e x := by
  induction h with
  | done _ => cases hx
  | @insert d p _ _ d₁ q hp hs hins _ ih =>
    have hlt := hins.lt
    rcases List.mem_cons.1 hx with rfl | hx
    · exact ⟨Nat.le_refl _, hlt, hp, rfl,
          fun _ => ⟨hins.le, fun b => hins.replaced hkey hs⟩, fun h => by
        rw [hs] at h
        cases h⟩
    · have hget : ∀ b, q ≤ b → d₁.get b = d.get b := fun b hb => by
        rw [hins.get, if_neg (by omega)]
      obtain ⟨h₁, h₂, h₃, h₄, h₅, h₆⟩ := ih hins.wf hx
      refine ⟨by omega, h₂, h₃, h₄.trans (hget _ h₁), fun h => ⟨(h₅ h).1, fun b hb hbx => ?_⟩,
        fun h b hb hbx hbe => ?_⟩
      · exact (hins.replaced_iff hw hkey hs (by omega)).2 ((h₅ h).2 b hb hbx)
      · obtain ⟨h₇, h₈⟩ := h₆ h b hb hbx hbe
        rw [hget b (by omega)] at h₈
        exact ⟨fun hr => h₇ ((hins.replaced_iff hw hkey hs (by omega)).1 hr), h₈⟩
  | @skip d p _ _ q hp hs hskip _ ih =>
    have hlt := hskip.lt
    rcases List.mem_cons.1 hx with rfl | hx
    · refine ⟨Nat.le_refl _, hlt, hp, rfl, fun h => ?_, fun _ b hb hbx hbe =>
        ⟨hskip.not_replaced hkey hs hb hbx hbe, hskip.same b hb hbx hbe⟩⟩
      rw [hs] at h
      cases h
    · obtain ⟨h₁, h₂, h₃, h₄, h₅, h₆⟩ := ih hw hx
      refine ⟨by omega, h₂, h₃, h₄, fun h => ⟨(h₅ h).1, fun b hb hbx => ?_⟩,
        fun h b hb hbx hbe => ?_⟩
      · exact (hskip.replaced_iff hkey hs).2 ((h₅ h).2 b hb hbx)
      · obtain ⟨h₇, h₈⟩ := h₆ h b hb hbx hbe
        exact ⟨fun hr => h₇ ((hskip.replaced_iff hkey hs).1 hr), h₈⟩

/-- Every byte of the range is in a stretch. -/
theorem exists_mem (h : Walk key par setFn e d p xs d') {b : Nat} (h₁ : p ≤ b) (h₂ : b < e) :
    ∃ x ∈ xs, x.start ≤ b ∧ b < x.stop := by
  induction h with
  | done _ => omega
  | insert d₁ q _ _ _ _ ih =>
    rcases Nat.lt_or_ge b q with hbq | hbq
    · exact ⟨_, List.mem_cons_self, h₁, hbq⟩
    · obtain ⟨x, hx, hb⟩ := ih hbq
      exact ⟨x, List.mem_cons_of_mem _ hx, hb⟩
  | skip q _ _ _ _ ih =>
    rcases Nat.lt_or_ge b q with hbq | hbq
    · exact ⟨_, List.mem_cons_self, h₁, hbq⟩
    · obtain ⟨x, hx, hb⟩ := ih hbq
      exact ⟨x, List.mem_cons_of_mem _ hx, hb⟩

/-- The entries passed over are those of bytes that are not replaced. -/
theorem exists_kept_iff (h : Walk key par setFn e d p xs d') (hw : d.WF)
    (hkey : ∀ x y, key x = key y → par x = par y) (k : κ) :
    (∃ x ∈ xs, ∃ y, x.prev = some y ∧ par y = true ∧ key y = k) ↔
      ∃ b, p ≤ b ∧ b < e ∧ ¬ Replaced key par d p e b ∧ ∃ y, d.get b = some y ∧ key y = k := by
  constructor
  · intro ⟨x, hx, y, hy, hpar, hk⟩
    obtain ⟨h₁, h₂, h₃, h₄, -, h₆⟩ := h.covers hw hkey hx
    have hs : inSeries par x.prev = false := by simp [hy, inSeries, hpar]
    exact ⟨x.start, h₁, h₃, (h₆ hs x.start (Nat.le_refl _) h₂ h₃).1, y, h₄ ▸ hy, hk⟩
  · intro ⟨b, h₁, h₂, hr, y, hy, hk⟩
    obtain ⟨x, hx, hxb, hbx⟩ := h.exists_mem h₁ h₂
    have hc := h.covers hw hkey hx
    cases hs : inSeries par x.prev with
    | true => exact absurd ((hc.replaced hs).2 b hxb hbx) hr
    | false =>
      have hsame := (hc.kept hs b hxb hbx h₂).2
      cases hprev : x.prev with
      | none => rw [hprev] at hs; cases hs
      | some z =>
        rw [hprev] at hs hsame
        rw [hy] at hsame
        simp only [sameEntry, Option.any_some, decide_eq_true_eq] at hsame
        exact ⟨x, hx, z, hprev, by simpa [inSeries] using hs, hsame.trans hk⟩

end Walk

end

end UpdateIterator

end Cilksan
