/-
What a query iterator does from its construction to its end, one call of
`next` after another, and what `check_race` therefore reports about a range.
-/
import CilkTools.Cilksan.FastPath

namespace Cilksan

namespace QueryIterator

section

variable {β : Type u} {κ : Type v} [DecidableEq κ] (key : β → κ)

/-- The iterator after `k` calls of `next`. -/
def after (d : Pages β) (accessed : Chunk) (k : Nat) : Chunk := (next key d)^[k] (mk d accessed)

end

variable {β : Type u} {κ : Type v} [DecidableEq κ] {key : β → κ} {d : Pages β} {p q q' e : Nat}
  {xs : List (Stretch β)}

theorem Passes.unique (h : Passes key d p q e) (h' : Passes key d p q' e) : q = q' := by
  have hlt : ∀ {r r'}, Passes key d p r e → Passes key d p r' e → r < e →
      r' ≤ r := fun {r r'} hr hr' hre => by
    by_contra hn
    have hgo := hr'.goes r (Nat.le_of_lt hr.lt) (by omega) hre
    rw [hr.stops hre] at hgo
    cases hgo
  rcases Nat.lt_or_ge q e with hq | hq
  · have hle := hlt h h' hq
    exact Nat.le_antisymm (hlt h' h (by omega)) hle
  · rcases Nat.lt_or_ge q' e with hq' | hq'
    · have hle := hlt h' h hq'
      omega
    · rw [h.last hq, h'.last hq']

/-- The stretches of a walk are where the iterator stops, in that order. -/
theorem Walk.iterate_next (hw : d.WF) (h : Walk key d e p xs) :
    ((next key d)^[xs.length] (.upTo p e)).isEmpty = true ∧
      ∀ i x, xs[i]? = some x → (next key d)^[i] (.upTo p e) = .upTo x.start e := by
  induction h with
  | done hle => exact ⟨Chunk.isEmpty_upTo.2 hle, by simp⟩
  | step q hp hu hpass _ ih =>
    obtain ⟨q', hnext, hpass', -⟩ := next_passes hw key hp hu
    rw [hpass'.unique hpass] at hnext
    refine ⟨?_, fun i x hx => ?_⟩
    · rw [List.length_cons, Function.iterate_succ_apply, hnext]
      exact ih.1
    · cases i with
      | zero =>
        cases hx
        rfl
      | succ i =>
        rw [Function.iterate_succ_apply, hnext]
        exact ih.2 i x hx

theorem Walk.length_le (h : Walk key d e p xs) : xs.length ≤ e - p := by
  induction h with
  | done _ => exact Nat.zero_le _
  | step q hp _ hpass _ ih =>
    have hlt := hpass.lt
    rw [List.length_cons]
    omega

/-- **Query iterators.** They come to the end of the range, stop inside it only,
and meet every valid entry of its bytes. -/
theorem after_spec (hw : d.WF) (key : β → κ) (p n : Nat) :
    ∃ k, k ≤ n ∧ (after key d ⟨p, n⟩ k).isEmpty = true ∧
    (∀ i < k, (after key d ⟨p, n⟩ i).isEmpty = false ∧
      p ≤ (after key d ⟨p, n⟩ i).addr ∧ (after key d ⟨p, n⟩ i).addr < p + n) ∧
    ∀ b y, p ≤ b → b < p + n → d.get b = some y →
      ∃ i < k, ∃ z, get d (after key d ⟨p, n⟩ i) = some z ∧ key z = key y := by
  have hfirst := mk_spec hw (p := p) (e := p + n)
  have hle : p ≤ (d.queryCells hw).seek d.used (p + n) p := Cells.le_seek
  have hnone : ∀ b, p ≤ b → b < (d.queryCells hw).seek d.used (p + n) p → b < p + n →
    d.used b = false := fun b h₁ h₂ h₃ => Cells.not_stop_of_lt_seek (used_const hw) h₁ h₂ h₃
  obtain ⟨xs, hwalk, -⟩ :=
    queryLoop_walk hw key (e := p + n) n (p := (d.queryCells hw).seek d.used (p + n) p)
      (by omega) Cells.stop_seek
  generalize (d.queryCells hw).seek d.used (p + n) p = p' at hfirst hle hnone hwalk
  obtain ⟨hend, hstops⟩ := hwalk.iterate_next hw
  have hlen := hwalk.length_le
  have hafter : ∀ i, after key d ⟨p, n⟩ i = (next key d)^[i] (.upTo p' (p + n)) := fun i => by
    rw [after, Chunk.mk_eq_upTo, hfirst]
  -- A stop of the iterator is a stretch of the walk.
  have hat : ∀ i < xs.length, ∃ x ∈ xs, after key d ⟨p, n⟩ i = .upTo x.start (p + n) := fun i hi =>
    ⟨xs[i], List.getElem_mem hi, by rw [hafter, hstops i _ (List.getElem?_eq_getElem hi)]⟩
  refine ⟨xs.length, by omega, by rw [hafter, hend], fun i hi => ?_, fun b y h₁ h₂ hy => ?_⟩
  · obtain ⟨x, hx, heq⟩ := hat i hi
    obtain ⟨hx₁, hx₂, -⟩ := hwalk.covers hx
    rw [heq, ← Bool.not_eq_true, Chunk.isEmpty_upTo, Chunk.upTo_addr]
    omega
  · obtain ⟨x, hx, z, hz, hk⟩ :=
      (exists_visited_iff hle hnone hwalk (key y)).2 ⟨b, h₁, h₂, y, hy, rfl⟩
    obtain ⟨-, hx₂, -, hprev, -⟩ := hwalk.covers hx
    obtain ⟨i, hi, rfl⟩ := List.getElem_of_mem hx
    refine ⟨i, hi, z, ?_, hk⟩
    rw [hafter, hstops i _ (List.getElem?_eq_getElem hi), get,
      if_neg (by rw [Chunk.isEmpty_upTo]; omega), Chunk.upTo_addr, ← hprev, hz]

end QueryIterator

/-- `check_race` finds a race exactly if some byte of the range has a parallel entry. -/
theorem checkRace_ne_nil_iff (f : Strand) (accId : Nat) (type : RaceType) {d : Pages MemoryAccess}
    (hw : d.WF) (p n : Nat) : checkRace f accId type d p n ≠ [] ↔
      ∃ b y, p ≤ b ∧ b < p + n ∧ d.get b = some y ∧ f.previousAccessInParallel y = true := by
  constructor
  · intro h
    obtain ⟨r, hr⟩ := List.exists_mem_of_ne_nil _ h
    obtain ⟨-, b, y, h₁, h₂, hy, hpar, -⟩ :=
      (checkRace_reported f accId type r.type hw r.prev.verFunc).1 ⟨r, hr, rfl, rfl⟩
    exact ⟨b, y, h₁, h₂, hy, hpar⟩
  · intro h hnil
    obtain ⟨b, y, h₁, h₂, hy, hpar⟩ := h
    obtain ⟨r, hr, -⟩ :=
      (checkRace_reported f accId type type hw y.verFunc).2 ⟨rfl, b, y, h₁, h₂, hy, hpar, rfl⟩
    rw [hnil] at hr
    cases hr

/-- **Range queries are exact.** -/
theorem rangeQuery_exact (f : Strand) (accId : Nat) (type : RaceType) (d : Pages MemoryAccess)
    (hw : d.WF) (p n : Nat) :
    (∃ k, k ≤ n ∧ (QueryIterator.after MemoryAccess.verFunc d ⟨p, n⟩ k).isEmpty = true ∧
      (∀ i < k, (QueryIterator.after MemoryAccess.verFunc d ⟨p, n⟩ i).isEmpty = false ∧
        p ≤ (QueryIterator.after MemoryAccess.verFunc d ⟨p, n⟩ i).addr ∧
        (QueryIterator.after MemoryAccess.verFunc d ⟨p, n⟩ i).addr < p + n) ∧
      ∀ b y, p ≤ b → b < p + n → d.get b = some y →
        ∃ i < k, ∃ z, QueryIterator.get d (QueryIterator.after MemoryAccess.verFunc d
          ⟨p, n⟩ i) = some z ∧ z.verFunc = y.verFunc) ∧
    (checkRace f accId type d p n ≠ [] ↔
      ∃ b y, p ≤ b ∧ b < p + n ∧ d.get b = some y ∧ f.previousAccessInParallel y = true) :=
  ⟨QueryIterator.after_spec hw MemoryAccess.verFunc p n, checkRace_ne_nil_iff f accId type hw p n⟩

/-- From inside a coarse entry to beyond the page. -/
theorem rangeQuery_exact_sixteen :
    checkRace swallowingStrand 5 .rwRace (Pages.single sixteenLine) 20 (2 ^ 31) ≠ [] ↔
      ∃ b y, 20 ≤ b ∧ b < 20 + 2 ^ 31 ∧ (Pages.single sixteenLine).get b = some y ∧
        swallowingStrand.previousAccessInParallel y = true :=
  (rangeQuery_exact swallowingStrand 5 .rwRace (Pages.single sixteenLine)
    (Pages.single_wf sixteenLine_wf) 20 (2 ^ 31)).2

end Cilksan
