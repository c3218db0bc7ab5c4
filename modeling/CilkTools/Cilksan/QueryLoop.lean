/-
The loop in which a range is checked (`check_race` and the functions like it
in `SimpleShadowMem`). `visit` is what a function does at each turn.

`Walk` is such a run: its stretches start at the valid entries that differ
from the one before.
-/
import CilkTools.Cilksan.UpdateLoop

namespace Cilksan

namespace QueryIterator

section

variable {β : Type u} {κ : Type v} [DecidableEq κ] (key : β → κ)
variable {σ : Type} (visit : Stretch β → σ → σ)

def queryLoop (d : Pages β) : Nat → Chunk → σ → σ
  | 0, _, s => s
  | n + 1, it, s =>
    if it.isEmpty then s
    else
      let it' := next key d it
      queryLoop d n it' (visit ⟨it.addr, get d it, it'.addr⟩ s)

def queryRange (d : Pages β) (accessed : Chunk) (s : σ) : σ :=
  queryLoop key visit d accessed.size (mk d accessed) s

end

variable {β : Type u} {κ : Type v} [DecidableEq κ] {key : β → κ} {d : Pages β} {p q e : Nat}
  {xs : List (Stretch β)}

/-- `next` passed the bytes from `p` up to `q`: they have no entry or that of
`p`, and if they include the last one, then all that is passed with it. -/
structure Passes (key : β → κ) (d : Pages β) (p q e : Nat) : Prop where
  lt : p < q
  goes : ∀ b, p ≤ b → b < q → b < e → Line.goesOn key (d.get p) (d.get b) = true
  stops : q < e → Line.goesOn key (d.get p) (d.get q) = false
  last : e ≤ q → q = nextMultiple (d.queryWidth (e - 1)) (e - 1)

theorem next_passes (hw : d.WF) (key : β → κ) (hp : p < e) (hu : d.used p = true) :
    ∃ q, next key d (.upTo p e) = .upTo q e ∧ Passes key d p q e ∧ (q < e → d.used q = true) := by
  have hconst : (d.queryCells hw).Const (stops key d (d.get p)) := stops_const hw _
  have hlt : p < (d.queryCells hw).next p := Cells.lt_next
  have hle :
    (d.queryCells hw).next p ≤
    (d.queryCells hw).seek (stops key d (d.get p)) e ((d.queryCells hw).next p) := Cells.le_seek
  refine ⟨_, next_spec hw key hp hu,
    ⟨by omega, fun b hb hbq hbe => ?_, fun hq => ?_, fun he => ?_⟩, fun hq => ?_⟩
  · rcases Nat.lt_or_ge b ((d.queryCells hw).next p) with hbn | hbn
    · rw [(get_const hw).eq hb hbn]
      exact Line.goesOn_self _
    · have := Cells.not_stop_of_lt_seek hconst hbn hbq hbe
      simpa [stops] using this
  · have := Cells.stop_seek hq
    simpa [stops] using this
  · rcases Nat.lt_or_ge ((d.queryCells hw).next p) e with hne | hne
    · exact Cells.seek_eq_next hne he
    · rw [Cells.seek_of_le hne]
      exact (Cells.next_eq (by omega) (by omega)).symm
  · exact used_of_stops (Cells.stop_seek hq)

/-- The loop went over these stretches, the range ending at `e`. -/
inductive Walk (key : β → κ) (d : Pages β) (e : Nat) : Nat → List (Stretch β) → Prop
  | done {p : Nat} : e ≤ p → Walk key d e p []
  | step {p : Nat} {xs : List (Stretch β)} (q : Nat) : p < e → d.used p = true →
      Passes key d p q e → Walk key d e q xs → Walk key d e p (⟨p, d.get p, q⟩ :: xs)

theorem queryLoop_walk (hw : d.WF) (key : β → κ) {e : Nat} : ∀ (n : Nat) {p : Nat}, e - p ≤ n →
    (p < e → d.used p = true) →
    ∃ xs, Walk key d e p xs ∧ ∀ {σ : Type} (visit : Stretch β → σ → σ) (s : σ),
      queryLoop key visit d n (.upTo p e) s = xs.foldl (fun s x => visit x s) s := by
  intro n
  induction n with
  | zero =>
    intro p hn _
    exact ⟨[], .done (by omega), fun visit s => rfl⟩
  | succ n ih =>
    intro p hn hu
    rcases Nat.lt_or_ge p e with hp | hp
    · have hend : (Chunk.upTo p e).isEmpty = false := by
        rw [← Bool.not_eq_true, Chunk.isEmpty_upTo]
        omega
      obtain ⟨q, h₁, h₂, h₃⟩ := next_passes hw key hp (hu hp)
      have hlt := h₂.lt
      obtain ⟨xs, hwalk, heq⟩ := ih (p := q) (by omega) h₃
      refine ⟨_, .step q hp (hu hp) h₂ hwalk, fun visit s => ?_⟩
      unfold queryLoop
      simp only [hend, Bool.false_eq_true, if_false, h₁, get]
      exact heq visit _
    · refine ⟨[], .done hp, fun visit s => ?_⟩
      unfold queryLoop
      rw [if_pos (Chunk.isEmpty_upTo.2 hp)]
      rfl

/-- **The loop.** It is a walk over the range from the first line with a valid
entry on. -/
theorem queryRange_walk (hw : d.WF) (key : β → κ) (p e : Nat) :
    ∃ p' xs, p ≤ p' ∧ (∀ b, p ≤ b → b < p' → b < e → d.used b = false) ∧
    (p' < e → d.used p' = true) ∧ Walk key d e p' xs ∧
      ∀ {σ : Type} (visit : Stretch β → σ → σ) (s : σ),
        queryRange key visit d (.upTo p e) s = xs.foldl (fun s x => visit x s) s := by
  have hle : p ≤ (d.queryCells hw).seek d.used e p := Cells.le_seek
  have hused : (d.queryCells hw).seek d.used e p < e →
      d.used ((d.queryCells hw).seek d.used e p) = true := Cells.stop_seek
  obtain ⟨xs, hwalk, heq⟩ :=
    queryLoop_walk hw key (e := e) (e - p) (p := (d.queryCells hw).seek d.used e p) (by omega) hused
  refine ⟨_, xs, hle, fun b h₁ h₂ h₃ => Cells.not_stop_of_lt_seek (used_const hw) h₁ h₂ h₃, hused,
    hwalk, fun visit s => ?_⟩
  unfold queryRange
  rw [mk_spec hw]
  exact heq visit s

namespace Walk

/-- What a stretch is. -/
structure Covers (key : β → κ) (d : Pages β) (p e : Nat) (x : Stretch β) : Prop where
  le : p ≤ x.start
  lt_end : x.start < e
  used : d.used x.start = true
  prev : x.prev = d.get x.start
  passes : Passes key d x.start x.stop e

theorem covers (h : Walk key d e p xs) {x : Stretch β} (hx : x ∈ xs) : Covers key d p e x := by
  induction h with
  | done _ => cases hx
  | step q hp hu hpass _ ih =>
    rcases List.mem_cons.1 hx with rfl | hx
    · exact ⟨Nat.le_refl _, hp, hu, rfl, hpass⟩
    · have hlt := hpass.lt
      obtain ⟨h₁, h₂, h₃, h₄, h₅⟩ := ih hx
      exact ⟨by omega, h₂, h₃, h₄, h₅⟩

theorem exists_mem (h : Walk key d e p xs) {b : Nat} (h₁ : p ≤ b) (h₂ : b < e) :
    ∃ x ∈ xs, x.start ≤ b ∧ b < x.stop := by
  induction h with
  | done _ => omega
  | step q _ _ _ _ ih =>
    rcases Nat.lt_or_ge b q with hbq | hbq
    · exact ⟨_, List.mem_cons_self, h₁, hbq⟩
    · obtain ⟨x, hx, hb⟩ := ih hbq
      exact ⟨x, List.mem_cons_of_mem _ hx, hb⟩

/-- The entries visited are those of the bytes of the range. -/
theorem exists_visited_iff (h : Walk key d e p xs) (k : κ) :
    (∃ x ∈ xs, ∃ y, x.prev = some y ∧ key y = k) ↔
    ∃ b, p ≤ b ∧ b < e ∧ ∃ y, d.get b = some y ∧ key y = k := by
  constructor
  · intro ⟨x, hx, y, hy, hk⟩
    obtain ⟨h₁, h₂, -, h₄, -⟩ := h.covers hx
    exact ⟨x.start, h₁, h₂, y, h₄ ▸ hy, hk⟩
  · intro ⟨b, h₁, h₂, y, hy, hk⟩
    obtain ⟨x, hx, hxb, hbx⟩ := h.exists_mem h₁ h₂
    obtain ⟨-, -, -, h₄, h₅⟩ := h.covers hx
    have hgo := h₅.goes b hxb hbx h₂
    rw [hy, ← h₄] at hgo
    cases hprev : x.prev with
    | none => rw [hprev] at hgo; cases hgo
    | some z =>
      rw [hprev] at hgo
      simp only [Line.goesOn, Option.any_some, decide_eq_true_eq] at hgo
      exact ⟨x, hx, z, hprev, hgo.trans hk⟩

end Walk

/-- The entries that a query visits are those of the bytes of its range. -/
theorem exists_visited_iff {p' : Nat} (hle : p ≤ p')
    (hnone : ∀ b, p ≤ b → b < p' → b < e → d.used b = false) (h : Walk key d e p' xs) (k : κ) :
    (∃ x ∈ xs, ∃ y, x.prev = some y ∧ key y = k) ↔
    ∃ b, p ≤ b ∧ b < e ∧ ∃ y, d.get b = some y ∧ key y = k := by
  rw [h.exists_visited_iff]
  constructor
  · intro ⟨b, h₁, h₂, hy⟩
    exact ⟨b, by omega, h₂, hy⟩
  · intro ⟨b, h₁, h₂, y, hy, hk⟩
    refine ⟨b, ?_, h₂, y, hy, hk⟩
    by_contra hlt
    have := hnone b h₁ (by omega) h₂
    rw [used_of_get hy] at this
    cases this

end QueryIterator

end Cilksan
