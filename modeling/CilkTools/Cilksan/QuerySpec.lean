/-
What a query iterator visits: from the first line with a valid entry on, the
valid entries that are not the same as the previous one.
-/
import CilkTools.Cilksan.Dictionary

namespace Cilksan

namespace QueryIterator

variable {β : Type u} {κ : Type v} [DecidableEq κ] {key : β → κ} {d : Pages β}

theorem queryWidth_of_none {p : Nat} (h : d.getLine p = none) : d.queryWidth p = 2 ^ 30 := by
  unfold Pages.queryWidth
  rw [h]
  rfl

theorem queryWidth_of_not_used {p : Nat} (hu : d.used p = false) (hp : (d (page p)).isSome = true) :
    d.queryWidth p = 512 := by
  rw [← Pages.getLine_isSome] at hp
  obtain ⟨l, hl⟩ := Option.isSome_iff_exists.1 hp
  have he : l.isEmpty = true := by simpa [Pages.used, hl] using hu
  unfold Pages.queryWidth
  simp only [hl, he, if_true]
  rfl

theorem page_of_used {p : Nat} (h : d.used p = true) : (d (page p)).isSome = true := by
  rw [← Pages.getLine_isSome]
  unfold Pages.used at h
  cases hl : d.getLine p with
  | none => rw [hl] at h; cases h
  | some l => rfl

theorem used_of_get {p : Nat} {x : β} (h : d.get p = some x) : d.used p = true := by
  unfold Pages.get at h
  unfold Pages.used
  cases hl : d.getLine p with
  | none => rw [hl] at h; cases h
  | some l =>
    rw [hl] at h
    cases he : l.isEmpty with
    | false => simp [he]
    | true =>
      simp only [Option.bind_some, Line.shadow_of_isEmpty he] at h
      cases h

theorem not_used_of_page {p : Nat} (h : (d (page p)).isSome = false) : d.used p = false := by
  cases hu : d.used p with
  | false => rfl
  | true =>
    rw [page_of_used hu] at h
    cases h

theorem used_const (hw : d.WF) : (d.queryCells hw).Const d.used :=
  fun _ _ h => (hw.queryCells_same h).2.2

theorem get_const (hw : d.WF) : (d.queryCells hw).Const d.get :=
  fun _ _ h => (hw.queryCells_same h).2.1

theorem nextPage_spec (hw : d.WF) {e : Nat} : ∀ (n : Nat) {p : Nat}, e - p ≤ n → p < e →
    ∃ p', nextPage d n (.upTo p e) = .upTo p' e ∧ p ≤ p' ∧ (p' < e → (d (page p')).isSome = true) ∧
      (d.queryCells hw).seek d.used e p' = (d.queryCells hw).seek d.used e p ∧
      (p' = p ∨ 2 ^ 30 ∣ p') := by
  intro n
  induction n with
  | zero => intro p hn hp; omega
  | succ n ih =>
    intro p hn hp
    have hend : nextMultiple (2 ^ (LG_PAGE_SIZE + LG_LINE_SIZE)) p = nextMultiple (2 ^ 30) p := rfl
    unfold nextPage
    simp only [Chunk.upTo_addr, Chunk.next_upTo, hend, Chunk.isEmpty_upTo]
    split
    · next h => exact ⟨p, rfl, Nat.le_refl _, fun _ => h, rfl, .inl rfl⟩
    · next h =>
      have hnone : d.getLine p = none := by
        rw [← Option.isNone_iff_eq_none, ← Option.not_isSome, Pages.getLine_isSome]
        simpa using h
      have hnext : (d.queryCells hw).next p = nextMultiple (2 ^ 30) p :=
        congrArg (nextMultiple · p) (queryWidth_of_none hnone)
      have hseek :
          (d.queryCells hw).seek d.used e p =
          (d.queryCells hw).seek d.used e (nextMultiple (2 ^ 30) p) := by
        rw [← hnext]
        exact Cells.seek_of_not_stop hp (not_used_of_page (by simpa using h))
      have hlt := lt_nextMultiple (x := p) (Nat.two_pow_pos 30)
      split
      · next he =>
          exact ⟨_, rfl, Nat.le_of_lt hlt, fun h => by omega, hseek.symm, .inr (dvd_nextMultiple p)⟩
      · next he =>
        obtain ⟨p', h₁, h₂, h₃, h₄, h₅⟩ := ih (p := nextMultiple (2 ^ 30) p) (by omega) (by omega)
        refine ⟨p', h₁, by omega, h₃, h₄.trans hseek.symm, .inr ?_⟩
        rcases h₅ with rfl | h₅
        · exact dvd_nextMultiple p
        · exact h₅

/-- Within a page, the next address of a line is in the page unless it starts one. -/
theorem page_eq_of_le {p q : Nat} (h₁ : p ≤ q) (h₂ : q ≤ nextMultiple (2 ^ 30) p)
    (h₃ : isPageStart q = false) : page q = page p := by
  refine div_eq_of_lt_nextMultiple (Nat.two_pow_pos 30) h₁ (Nat.lt_of_le_of_ne h₂ fun h => ?_)
  rw [← Bool.not_eq_true, isPageStart_iff] at h₃
  exact h₃ (h ▸ dvd_nextMultiple p)

theorem nextLine_spec (hw : d.WF) {e : Nat} : ∀ (n : Nat) {p : Nat}, e - p ≤ n → p < e →
    (d (page p)).isSome = true →
    nextLine d n (.upTo p e) = .upTo ((d.queryCells hw).seek d.used e p) e := by
  intro n
  induction n with
  | zero => intro p hn hp; omega
  | succ n ih =>
    intro p hn hp hpage
    have hline : nextMultiple (2 ^ LG_LINE_SIZE) p = lineEnd p := rfl
    unfold nextLine
    simp only [Chunk.upTo_addr, Chunk.next_upTo, hline, Chunk.isEmpty_upTo]
    split
    · next h => rw [Cells.seek_of_stop h]
    · next h =>
      have hu : d.used p = false := by simpa using h
      have hnext : (d.queryCells hw).next p = lineEnd p :=
        congrArg (nextMultiple · p) (queryWidth_of_not_used hu hpage)
      have hlt : p < lineEnd p := lt_lineEnd
      rw [Cells.seek_of_not_stop hp hu, hnext]
      split
      · next he => rw [Cells.seek_of_le he]
      · next he =>
        split
        · next hs =>
          obtain ⟨p', h₁, h₂, h₃, h₄, -⟩ :=
            nextPage_spec hw (e := e) n (p := lineEnd p) (by omega) (by omega)
          rw [h₁, ← h₄]
          simp only [Chunk.isEmpty_upTo]
          split
          · next he' => rw [Cells.seek_of_le he']
          · next he' => exact ih (by omega) (by omega) (h₃ (by omega))
        · next hs =>
          have hle : lineEnd p ≤ nextMultiple (2 ^ 30) p :=
            nextMultiple_le_nextMultiple (Nat.pow_dvd_pow 2 (show 9 ≤ 30 by omega))
              (Nat.two_pow_pos 30) p
          have hpe : page (lineEnd p) = page p :=
            page_eq_of_le (Nat.le_of_lt hlt) hle (by simpa using hs)
          simp only [Chunk.isEmpty_upTo]
          rw [if_neg he]
          exact ih (by omega) (by omega) (by rw [hpe]; exact hpage)

/-- The iterator begins at the first line with a valid entry. -/
theorem mk_spec (hw : d.WF) {p e : Nat} :
    mk d (.upTo p e) = .upTo ((d.queryCells hw).seek d.used e p) e := by
  unfold mk
  simp only [Chunk.isEmpty_upTo]
  split
  · next h => rw [Cells.seek_of_le h]
  · next h =>
    obtain ⟨p', h₁, h₂, h₃, h₄, -⟩ := nextPage_spec hw (e - p) (p := p) (Nat.le_refl _) (by omega)
    have h₁' : nextPage d (Chunk.upTo p e).size (.upTo p e) = .upTo p' e := h₁
    simp only [h₁', Chunk.isEmpty_upTo, ← h₄]
    split
    · next he => rw [Cells.seek_of_le he]
    · next he => exact nextLine_spec hw _ (Nat.le_refl _) (by omega) (h₃ (by omega))

/-- Where `next` stops after an entry. -/
def stops (key : β → κ) (d : Pages β) (prev : Option β) (b : Nat) : Bool :=
  !Line.goesOn key prev (d.get b)

theorem used_of_stops {prev : Option β} {b : Nat} (h : stops key d prev b = true) :
    d.used b = true := by
  unfold stops at h
  cases hg : d.get b with
  | none => rw [hg] at h; cases h
  | some x => exact used_of_get hg

theorem stops_const (hw : d.WF) (prev : Option β) :
    (d.queryCells hw).Const (stops key d prev) := fun b c h => by
  unfold stops
  rw [get_const hw b c h]

theorem queryWidth_of_used {p : Nat} (h : d.used p = true) :
    d.queryWidth p = 2 ^ ((d.getLine p).map (·.lgGrainsize)).getD 0 := by
  unfold Pages.used at h
  unfold Pages.queryWidth
  cases hl : d.getLine p with
  | none => rw [hl] at h; cases h
  | some l =>
    rw [hl] at h
    have he : l.isEmpty = false := by simpa using h
    simp [he]

theorem nextLoop_spec (hw : d.WF) (key : β → κ) (prev : Option β) {e : Nat} :
    ∀ (n : Nat) {p : Nat}, e - p ≤ n → p < e → d.used p = true → nextLoop key d prev n (.upTo p e) =
      .upTo ((d.queryCells hw).seek (stops key d prev) e ((d.queryCells hw).next p)) e := by
  intro n
  induction n with
  | zero => intro p hn hp; omega
  | succ n ih =>
    intro p hn hp hu
    have hw30 : d.queryWidth p ∣ 2 ^ 30 := by
      rw [queryWidth_of_used hu]
      refine Nat.pow_dvd_pow 2 ?_
      cases hl : d.getLine p with
      | none => exact Nat.zero_le _
      | some l => exact Nat.le_trans (hw p l hl).le (by omega)
    have hw9 : d.queryWidth p ∣ 512 := by
      rw [queryWidth_of_used hu]
      refine grain_dvd ?_
      cases hl : d.getLine p with
      | none => exact Nat.zero_le _
      | some l => exact (hw p l hl).le
    have hnext : nextMultiple (2 ^ ((d.getLine p).map (·.lgGrainsize)).getD 0) p =
        (d.queryCells hw).next p := by
      rw [← queryWidth_of_used hu]
      rfl
    have hlt : p < (d.queryCells hw).next p := Cells.lt_next
    unfold nextLoop
    simp only [Chunk.upTo_addr, hu, if_true, Chunk.next_upTo, hnext, Chunk.isEmpty_upTo]
    generalize hp₁ : (d.queryCells hw).next p = p₁ at hlt ⊢
    have hle30 : p₁ ≤ nextMultiple (2 ^ 30) p :=
      hp₁ ▸ nextMultiple_le_nextMultiple hw30 (Nat.two_pow_pos 30) p
    have hle9 : p₁ ≤ lineEnd p := hp₁ ▸ nextMultiple_le_nextMultiple hw9 (by decide) p
    split
    · next he => rw [Cells.seek_of_le he]
    · next he =>
      -- The page and the line.
      obtain ⟨p₂, hp₂, hle₂, hpage₂, hseek₂, hor₂⟩ :
          ∃ p₂, (if isPageStart p₁ then nextPage d n (.upTo p₁ e)
          else .upTo p₁ e) = .upTo p₂ e ∧ p₁ ≤ p₂ ∧ (p₂ < e → (d (page p₂)).isSome = true) ∧
          (d.queryCells hw).seek d.used e p₂ = (d.queryCells hw).seek d.used e p₁ ∧
              (p₂ = p₁ ∨ 2 ^ 30 ∣ p₂) := by
        split
        · exact nextPage_spec hw n (by omega) (by omega)
        · next hs =>
          refine ⟨p₁, rfl, Nat.le_refl _, fun _ => ?_, rfl, .inl rfl⟩
          rw [page_eq_of_le (Nat.le_of_lt hlt) hle30 (by simpa using hs)]
          exact page_of_used hu
      rw [hp₂]
      simp only [Chunk.isEmpty_upTo]
      have hstops : ∀ b, stops key d prev b = true → d.used b = true := fun b => used_of_stops
      rw [← Cells.seek_seek hstops (p := p₁), ← hseek₂]
      split
      · next he₂ => rw [Cells.seek_of_le he₂, Cells.seek_of_le he₂]
      · next he₂ =>
        obtain ⟨p₃, hp₃, hseek₃⟩ :
            ∃ p₃, (if isLineStart (Chunk.upTo p₂ e).addr then nextLine d n (.upTo p₂ e)
            else .upTo p₂ e) = .upTo p₃ e ∧ (d.queryCells hw).seek d.used e p₂ = p₃ := by
          rw [Chunk.upTo_addr]
          split
          · exact ⟨_, nextLine_spec hw n (by omega) (by omega) (hpage₂ (by omega)), rfl⟩
          · next hs =>
            have hs' : ¬ 512 ∣ p₂ := fun h => hs (isLineStart_iff.2 h)
            have hp₂₁ : p₂ = p₁ := by
              rcases hor₂ with h | h
              · exact h
              · exact absurd (Dvd.dvd.trans (Nat.pow_dvd_pow 2 (show 9 ≤ 30 by omega)) h) hs'
            subst hp₂₁
            have hsame : SameLine p₂ p := sameLine_of_lt (Nat.le_of_lt hlt)
              (Nat.lt_of_le_of_ne hle9 fun h => hs' (h ▸ dvd_nextMultiple p))
            refine ⟨p₂, rfl, Cells.seek_of_stop ?_⟩
            rw [Pages.used, Pages.getLine_congr hsame]
            exact hu
        have hle₃ : p₂ ≤ p₃ := hseek₃ ▸ Cells.le_seek
        rw [hp₃, hseek₃]
        simp only [Chunk.isEmpty_upTo]
        split
        · next he₃ => rw [Cells.seek_of_le he₃]
        · next he₃ =>
          have hu₃ : d.used p₃ = true := hseek₃ ▸ Cells.stop_seek (by omega)
          by_cases hgo : Line.goesOn key prev (d.get p₃) = true
          · rw [if_pos (by exact hgo), ih (by omega) (by omega) hu₃,
              Cells.seek_of_not_stop (p := p₃) (by omega)]
            unfold stops
            rw [hgo]
            rfl
          · rw [if_neg (by exact hgo), Cells.seek_of_stop]
            unfold stops
            simpa using hgo

/-- **Query iterators.** From an address in a line with a valid entry, `next`
goes to the next valid entry that is not the same. -/
theorem next_spec (hw : d.WF) (key : β → κ) {p e : Nat} (hp : p < e) (hu : d.used p = true) :
    next key d (.upTo p e) =
      .upTo ((d.queryCells hw).seek (stops key d (d.get p)) e ((d.queryCells hw).next p)) e :=
  nextLoop_spec hw key _ _ (Nat.le_refl _) hp hu

end QueryIterator

end Cilksan
