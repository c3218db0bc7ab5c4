/-
Where the last stretch of a range ends. An iterator that passes an entry goes
on to the end of that entry, which may be past the end of the range.
-/
import CilkTools.Cilksan.QueryLoop

namespace Cilksan

variable {β : Type u} {κ : Type v} [DecidableEq κ] {key : β → κ} {par : β → Bool}
  {setFn : Option β → β}
variable {d d' : Pages β} {p p' e b : Nat} {xs : List (Stretch β)}

/-- The end of the last of the stretches that start at `p`. -/
def lastStop {β : Type u} : Nat → List (Stretch β) → Nat
  | p, [] => p
  | _, x :: xs => lastStop x.stop xs

/-- The last valid entry of the bytes from `p` up to `e`. -/
def Pages.lastEntry {β : Type u} (d : Pages β) (p : Nat) : Nat → Option β
  | 0 => none
  | e + 1 => if e < p then none else (d.get e).or (lastEntry d p e)

theorem Pages.lastEntry_spec (d : Pages β) (p : Nat) :
    ∀ e, (d.lastEntry p e = none ∧ ∀ c, p ≤ c → c < e → d.get c = none) ∨
    ∃ a z, d.lastEntry p e = some z ∧ p ≤ a ∧ a < e ∧ d.get a = some z ∧ ∀ c, a < c → c < e →
    d.get c = none := by
  intro e
  induction e with
  | zero => exact .inl ⟨rfl, fun c _ hc => by omega⟩
  | succ e ih =>
    rw [lastEntry]
    by_cases hp : e < p
    · rw [if_pos hp]
      exact .inl ⟨rfl, fun c _ hc => by omega⟩
    · rw [if_neg hp]
      cases hget : d.get e with
      | some z => exact .inr ⟨e, z, rfl, by omega, by omega, hget, fun c _ _ => by omega⟩
      | none =>
        rw [Option.none_or]
        rcases ih with ⟨hl, hall⟩ | ⟨a, z, hl, h₁, h₂, h₃, hall⟩
        · refine .inl ⟨hl, fun c h₁ h₂ => ?_⟩
          by_cases hc : c = e
          · rw [hc, hget]
          · exact hall c h₁ (by omega)
        · refine .inr ⟨a, z, hl, h₁, by omega, h₃, fun c h₄ h₅ => ?_⟩
          by_cases hc : c = e
          · rw [hc, hget]
          · exact hall c h₄ (by omega)

/-! ## Queries -/

namespace QueryIterator

/-- A stretch starts at a valid entry, unless it is the first one. -/
theorem Walk.start (h : Walk key d e p xs) {x : Stretch β} (hx : x ∈ xs) :
    x.start = p ∨ (d.get x.start).isSome = true := by
  induction h with
  | done _ => cases hx
  | @step p xs q hp hu hpass hwalk ih =>
    rcases List.mem_cons.1 hx with rfl | hx
    · exact .inl rfl
    · right
      rcases ih hx with heq | hsome
      · have hstart := (hwalk.covers hx).lt_end
        have hstop := hpass.stops (heq ▸ hstart)
        rw [heq]
        cases hget : d.get q with
        | some y => rfl
        | none => rw [hget] at hstop; cases hstop
      · exact hsome

/-- The bytes past the end that are visited with a parallel entry: those of
the last cell, if the last valid entry of the range is parallel. -/
theorem exists_past_end_iff (hkey : ∀ x y, key x = key y → par x = par y) (hle : p ≤ p')
    (hnone : ∀ b, p ≤ b → b < p' → b < e → d.used b = false) (h : Walk key d e p' xs) (hb : e ≤ b) :
    (∃ x ∈ xs, x.prev.any par = true ∧ b < x.stop) ↔
      (d.lastEntry p e).any par = true ∧ b < nextMultiple (d.queryWidth (e - 1)) (e - 1) := by
  constructor
  · intro hx
    obtain ⟨x, hx, hpar, hbx⟩ := hx
    obtain ⟨h₁, h₂, -, h₄, h₅⟩ := h.covers hx
    rw [h₄] at hpar
    obtain ⟨y, hy, hpy⟩ := (Option.any_eq_true _ _).1 hpar
    refine ⟨?_, h₅.last (by omega) ▸ hbx⟩
    rcases d.lastEntry_spec p e with ⟨-, hall⟩ | ⟨a, z, hl, h₆, h₇, h₈, hall⟩
    · rw [hall x.start (by omega) h₂] at hy
      cases hy
    · have hxa : x.start ≤ a := by
        refine Nat.not_lt.1 fun hlt => ?_
        rw [hall x.start hlt h₂] at hy
        cases hy
      have hgo := h₅.goes a hxa (by omega) h₇
      rw [hy, h₈] at hgo
      simp only [Line.goesOn, Option.any_some, decide_eq_true_eq] at hgo
      rw [hl, Option.any_some, ← hkey y z hgo]
      exact hpy
  · intro hlast
    obtain ⟨hpar, hbn⟩ := hlast
    rcases d.lastEntry_spec p e with ⟨hl, -⟩ | ⟨a, z, hl, h₁, h₂, h₃, hall⟩
    · rw [hl] at hpar
      cases hpar
    · rw [hl, Option.any_some] at hpar
      have hpa : p' ≤ a := by
        refine Nat.not_lt.1 fun hlt => ?_
        have hu := hnone a h₁ hlt h₂
        rw [used_of_get h₃] at hu
        cases hu
      obtain ⟨x, hx, hxe, hex⟩ := h.exists_mem (b := e - 1) (by omega) (by omega)
      obtain ⟨-, h₅, -, h₇, h₈⟩ := h.covers hx
      have hxa : x.start ≤ a := by
        refine Nat.not_lt.1 fun hlt => ?_
        rcases h.start hx with heq | hsome
        · omega
        · rw [hall x.start hlt h₅] at hsome
          cases hsome
      have hgo := h₈.goes a hxa (by omega) h₂
      rw [h₃] at hgo
      refine ⟨x, hx, ?_, h₈.last (by omega) ▸ hbn⟩
      rw [h₇]
      cases hy : d.get x.start with
      | none => rw [hy] at hgo; cases hgo
      | some y =>
        rw [hy] at hgo
        simp only [Line.goesOn, Option.any_some, decide_eq_true_eq] at hgo
        rw [Option.any_some, hkey y z hgo]
        exact hpar

end QueryIterator

/-! ## Updates -/

namespace UpdateIterator

/-- The range ends within an entry, and its bytes in the line of that entry are
all passed. -/
def PastEnd (key : β → κ) (par : β → Bool) (d : Pages β) (p e : Nat) : Prop :=
  e < nextMultiple (2 ^ (d.lineAt (e - 1)).lgGrainsize) (e - 1) ∧
    ∀ b, p ≤ b → b < e → SameLine b (e - 1) → ¬ Replaced key par d p e b

namespace Walk

theorem le_lastStop (h : Walk key par setFn e d p xs d') : e ≤ lastStop p xs := by
  induction h with
  | done h => exact h
  | insert _ _ _ _ _ _ ih => exact ih
  | skip _ _ _ _ _ ih => exact ih

theorem eq_nil (h : Walk key par setFn e d p xs d') (he : e ≤ p) : xs = [] ∧ d' = d := by
  cases h with
  | done _ => exact ⟨rfl, rfl⟩
  | insert _ _ hlt => omega
  | skip _ hlt => omega

/-- The line at the end of an insertion ends where the range does, or later. -/
theorem nextMultiple_of_grain {q g : Nat} (hq : q < e) (hs : SameLine q (e - 1))
    (hg : Chunk.Grain q e g) : nextMultiple (2 ^ g) (e - 1) = e := by
  have hdvd : 2 ^ g ∣ e := by
    by_cases hl : e < lineEnd q
    · exact hg.stop hl
    · have heq : e = lineEnd q := by
        have hlt := (show SameLine (e - 1) q from hs.symm).lt_lineEnd
        omega
      rw [heq]
      exact Dvd.dvd.trans (grain_dvd hg.le) (dvd_nextMultiple q)
  refine Nat.le_antisymm (nextMultiple_le_of_dvd hdvd (by omega)) ?_
  have hlt := lt_nextMultiple (x := e - 1) (Nat.two_pow_pos g)
  omega

/-- The last stretch ends past the range exactly if the range ends within an
entry that is passed, in a line where nothing is set. -/
theorem past_end_iff (h : Walk key par setFn e d p xs d') (hw : d.WF) (hm : d.Mapped p e)
    (hkey : ∀ x y, key x = key y → par x = par y) (hpe : p < e) :
    (e < lastStop p xs ↔ PastEnd key par d p e) ∧
      (e < lastStop p xs →
        lastStop p xs = nextMultiple (2 ^ (d.lineAt (e - 1)).lgGrainsize) (e - 1)) := by
  induction h with
  | done h => omega
  | @insert d p xs d'' d₁ q hp hs hins hwalk ih =>
    have hlt := hins.lt
    have hle := hins.le
    by_cases hq : q < e
    · by_cases hnear : ∃ c, p ≤ c ∧ c < q ∧ SameLine (e - 1) c
      · -- The insertion made the line as fine as the range needs.
        obtain ⟨c, hpc, hcq, hc⟩ := hnear
        have hqs : SameLine q (e - 1) := by
          unfold SameLine at hc ⊢
          omega
        have hq512 : ¬ 512 ∣ q := by
          unfold SameLine at hc hqs
          omega
        have hgrain := (hins.grain hq).resolve_left hq512
        rw [Pages.lineAt_congr hqs] at hgrain
        have hend := nextMultiple_of_grain hq hqs hgrain
        have hiff := (ih hins.wf (hins.toFilled.mapped hm) hq).1
        have hno : ¬ e < lastStop q xs := fun hl => by
          have hpast := (hiff.1 hl).1
          omega
        refine ⟨⟨fun hl => absurd hl hno, fun hpast => ?_⟩, fun hl => absurd hl hno⟩
        exact absurd (hins.replaced hkey hs hpc hcq) (hpast.2 c hpc (by omega) hc.symm)
      · have hline : d₁.lineAt (e - 1) = d.lineAt (e - 1) :=
          hins.lines _ fun c hpc hcq hc => hnear ⟨c, hpc, hcq, hc⟩
        obtain ⟨hiff, hstop⟩ := ih hins.wf (hins.toFilled.mapped hm) hq
        rw [hline] at hstop
        refine ⟨hiff.trans ?_, hstop⟩
        unfold PastEnd
        rw [hline]
        refine and_congr_right fun _ => forall_congr' fun b => ⟨fun hall h₁ h₂ hb => ?_,
          fun hall h₁ h₂ hb => ?_⟩
        · have hqb : q ≤ b := Nat.not_lt.1 fun hbq => hnear ⟨b, h₁, hbq, hb.symm⟩
          exact fun hr => hall hqb h₂ hb ((hins.replaced_iff hw hkey hs hqb).1 hr)
        · exact fun hr => hall (by omega) h₂ hb ((hins.replaced_iff hw hkey hs h₁).2 hr)
    · obtain ⟨rfl, -⟩ := hwalk.eq_nil (by omega)
      have hno : ¬ e < lastStop q ([] : List (Stretch β)) := by
        simp only [lastStop]
        omega
      refine ⟨⟨fun hl => absurd hl hno, fun hpast => ?_⟩, fun hl => absurd hl hno⟩
      exact absurd (hins.replaced hkey hs (by omega) (by omega))
        (hpast.2 (e - 1) (by omega) (by omega) rfl)
  | @skip d p xs d'' q hp hs hskip hwalk ih =>
    have hlt := hskip.lt
    by_cases hq : q < e
    · obtain ⟨hiff, hstop⟩ := ih hw (fun b h₁ h₂ => hm b (by omega) h₂) hq
      refine ⟨hiff.trans ?_, hstop⟩
      unfold PastEnd
      refine and_congr_right fun _ => forall_congr' fun b => ⟨fun hall h₁ h₂ hb => ?_,
        fun hall h₁ h₂ hb => ?_⟩
      · by_cases hqb : q ≤ b
        · exact fun hr => hall hqb h₂ hb ((hskip.replaced_iff hkey hs).1 hr)
        · exact hskip.not_replaced hkey hs h₁ (by omega) h₂
      · exact fun hr => hall (by omega) h₂ hb ((hskip.replaced_iff hkey hs).2 hr)
    · obtain ⟨rfl, -⟩ := hwalk.eq_nil (by omega)
      have heq : lastStop p [⟨p, d.get p, q⟩] = q := rfl
      have hlast := hskip.last (by omega)
      rw [updateWidth_eq (hm (e - 1) (by omega) (by omega))] at hlast
      rw [heq]
      refine ⟨⟨fun hl => ⟨by omega, fun b h₁ h₂ _ => hskip.not_replaced hkey hs h₁ (by omega) h₂⟩,
          fun hpast => ?_⟩, fun _ => hlast⟩
      rw [hlast]
      exact hpast.1

/-- Only a stretch that is passed can end past the range. -/
theorem exists_past_end_iff (h : Walk key par setFn e d p xs d') (hpe : p < e) (hb : e ≤ b) :
    (∃ x ∈ xs, inSeries par x.prev = false ∧ b < x.stop) ↔ b < lastStop p xs := by
  induction h with
  | done h => omega
  | @insert d p xs d'' d₁ q hp hs hins hwalk ih =>
    have hle := hins.le
    have hhead : ¬ (inSeries par (d.get p) = false ∧ b < q) := fun hc => by omega
    rw [List.exists_mem_cons_iff, or_iff_right hhead]
    by_cases hq : q < e
    · exact ih hq
    · obtain ⟨rfl, -⟩ := hwalk.eq_nil (by omega)
      refine iff_of_false (fun hx => ?_) (by simp only [lastStop]; omega)
      obtain ⟨x, hx, -⟩ := hx
      cases hx
  | @skip d p xs d'' q hp hs hskip hwalk ih =>
    rw [List.exists_mem_cons_iff]
    by_cases hq : q < e
    · have hhead : ¬ (inSeries par (d.get p) = false ∧ b < q) := fun hc => by omega
      rw [or_iff_right hhead]
      exact ih hq
    · obtain ⟨rfl, -⟩ := hwalk.eq_nil (by omega)
      constructor
      · intro hx
        rcases hx with hx | ⟨x, hx, -⟩
        · exact hx.2
        · cases hx
      · exact fun hl => .inl ⟨hs, hl⟩

end Walk

end UpdateIterator

end Cilksan
