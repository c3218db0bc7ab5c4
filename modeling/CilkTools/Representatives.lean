/-
One representative of each class: a table of values under keys, in which a
value is looked for among those under its own key only, and put if no
equivalent one is there.
-/
import Mathlib.Logic.Basic

namespace Representatives

variable {γ : Type u} {κ : Type v} {α : Type w}

/-- An equivalent of `a` is found under its key. -/
def known [DecidableEq κ] (eqv : α → α → Bool) (table : List (κ × α)) (k : κ) (a : α) : Bool :=
  (table.filter fun e => e.1 = k).any fun e => eqv a e.2

def add [DecidableEq κ] (eqv : α → α → Bool) (table : List (κ × α)) (k : κ) (a : α) :
    List (κ × α) :=
  if known eqv table k a then table else (k, a) :: table

/-- The table has one of each class of the values seen, under their keys. -/
structure OneOfEach (eqv : α → α → Bool) (key : γ → κ) (val : γ → α) (seen : List γ)
    (table : List (κ × α)) : Prop where
  origin : ∀ e ∈ table, ∃ c ∈ seen, e = (key c, val c)
  apart : table.Pairwise fun e e' => eqv e.2 e'.2 = false
  covers : ∀ c ∈ seen, ∃ e ∈ table, eqv (val c) e.2 = true

namespace OneOfEach

variable {eqv : α → α → Bool} {key : γ → κ} {val : γ → α} {seen : List γ}
  {table : List (κ × α)} {c : γ}

theorem nil : OneOfEach eqv key val [] ([] : List (κ × α)) := ⟨by simp, .nil, by simp⟩

/-- Where equivalent values have the same key, the search finds any equivalent. -/
theorem known_iff [DecidableEq κ] (h : OneOfEach eqv key val seen table)
    (hkey : ∀ d ∈ seen, eqv (val c) (val d) = true → key c = key d) :
    known eqv table (key c) (val c) = true ↔ ∃ e ∈ table, eqv (val c) e.2 = true := by
  rw [known, List.any_eq_true]
  constructor
  · intro hk
    obtain ⟨e, he, heqv⟩ := hk
    exact ⟨e, (List.mem_filter.1 he).1, heqv⟩
  · intro hk
    obtain ⟨e, he, heqv⟩ := hk
    obtain ⟨d, hd, rfl⟩ := h.origin e he
    exact ⟨_, List.mem_filter.2 ⟨he, decide_eq_true (hkey d hd heqv).symm⟩, heqv⟩

theorem add [DecidableEq κ] (h : OneOfEach eqv key val seen table) (hrefl : ∀ a, eqv a a = true)
    (hkey : ∀ d ∈ seen, eqv (val c) (val d) = true → key c = key d) :
    OneOfEach eqv key val (seen ++ [c]) (add eqv table (key c) (val c)) := by
  have hknown := h.known_iff hkey
  unfold Representatives.add
  split
  · next hk =>
    refine ⟨fun e he => ?_, h.apart, fun d hd => ?_⟩
    · obtain ⟨d, hd, rfl⟩ := h.origin e he
      exact ⟨d, List.mem_append_left _ hd, rfl⟩
    · rcases List.mem_append.1 hd with hd | hd
      · exact h.covers d hd
      · obtain rfl := List.mem_singleton.1 hd
        exact hknown.1 hk
  · next hk =>
    refine ⟨fun e he => ?_, List.pairwise_cons.2 ⟨fun e he => ?_, h.apart⟩, fun d hd => ?_⟩
    · rcases List.mem_cons.1 he with rfl | he
      · exact ⟨c, by simp, rfl⟩
      · obtain ⟨d, hd, rfl⟩ := h.origin e he
        exact ⟨d, List.mem_append_left _ hd, rfl⟩
    · rw [Bool.eq_false_iff]
      exact fun heqv => hk (hknown.2 ⟨e, he, heqv⟩)
    · rcases List.mem_append.1 hd with hd | hd
      · obtain ⟨e, he, heqv⟩ := h.covers d hd
        exact ⟨e, List.mem_cons_of_mem _ he, heqv⟩
      · obtain rfl := List.mem_singleton.1 hd
        exact ⟨_, List.mem_cons_self, hrefl _⟩

/-- The only one of its class. -/
theorem length_filter (h : OneOfEach eqv key val seen table)
    (hsymm : ∀ a b, eqv a b = true → eqv b a = true)
    (htrans : ∀ a b d, eqv a b = true → eqv b d = true → eqv a d = true) (hc : c ∈ seen) :
    (table.filter fun e => eqv (val c) e.2).length = 1 := by
  have hcov := h.covers c hc
  have hapart := h.apart
  clear h
  induction table with
  | nil => simp at hcov
  | cons e table ih =>
    rw [List.pairwise_cons] at hapart
    cases he : eqv (val c) e.2 with
    | true =>
      have hrest : (table.filter fun e => eqv (val c) e.2) = [] := by
        rw [List.filter_eq_nil_iff]
        intro e' he' heqv
        have := htrans _ _ _ (hsymm _ _ he) heqv
        rw [hapart.1 e' he'] at this
        cases this
      rw [List.filter_cons_of_pos (by simpa using he), hrest]
      rfl
    | false =>
      rw [List.filter_cons_of_neg (by simp [he])]
      refine ih ?_ hapart.2
      obtain ⟨e', he', heqv⟩ := hcov
      rcases List.mem_cons.1 he' with rfl | he'
      · rw [he] at heqv
        cases heqv
      · exact ⟨e', he', heqv⟩

end OneOfEach

end Representatives
