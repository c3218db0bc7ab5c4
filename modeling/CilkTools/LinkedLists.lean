/-
Doubly linked lists in memory: nodes with a link to the next one and a link back
to the one before, changed by writes to single links.
-/
import Mathlib.Data.List.Nodup
import Mathlib.Data.List.Perm.Basic

namespace LinkedLists

variable {α : Type u}

/-- The nodes `l`, from `p` on and after `prev`: the links lead to `q`, and what
is before that is `last`. -/
def Segment (next back : α → α) : α → α → List α → α → α → Prop
  | p, prev, [], q, last => p = q ∧ prev = last
  | p, prev, x :: l, q, last => p = x ∧ back x = prev ∧ Segment next back (next x) x l q last

/-- From `p` on, the list `l` ends with `null`, at both ends. -/
structure Linked (next back : α → α) (null p : α) (l : List α) : Prop where
  links : ∃ last, Segment next back p null l null last
  apart : null ∉ l
  nodup : l.Nodup

variable {next back next' back' : α → α} {null p p' prev q last x y : α} {l l₁ l₂ : List α}

namespace Segment

theorem congr (hl : Segment next back p prev l q last) (hnext : ∀ y ∈ l, next' y = next y)
    (hback : ∀ y ∈ l, back' y = back y) : Segment next' back' p prev l q last := by
  induction l generalizing p prev with
  | nil => exact hl
  | cons x l ih =>
    obtain ⟨hp, hprev, hl⟩ := hl
    refine ⟨hp, (hback x (by simp)).trans hprev, ?_⟩
    rw [hnext x (by simp)]
    exact ih hl (fun y hy => hnext y (by simp [hy])) fun y hy => hback y (by simp [hy])

theorem append : Segment next back p prev (l₁ ++ l₂) q last ↔
    ∃ m r, Segment next back p prev l₁ m r ∧ Segment next back m r l₂ q last := by
  induction l₁ generalizing p prev with
  | nil =>
    constructor
    · intro h
      exact ⟨p, prev, ⟨rfl, rfl⟩, h⟩
    · intro h
      obtain ⟨m, r, ⟨rfl, rfl⟩, h⟩ := h
      exact h
  | cons x l₁ ih =>
    constructor
    · intro h
      obtain ⟨hp, hprev, h⟩ := h
      obtain ⟨m, r, h₁, h₂⟩ := ih.1 h
      exact ⟨m, r, ⟨hp, hprev, h₁⟩, h₂⟩
    · intro h
      obtain ⟨m, r, ⟨hp, hprev, h₁⟩, h₂⟩ := h
      exact ⟨hp, hprev, ih.2 ⟨m, r, h₁, h₂⟩⟩

/-- The last node is what is before the end. -/
theorem concat : Segment next back p prev (l ++ [x]) q last ↔
    Segment next back p prev l x (back x) ∧ next x = q ∧ last = x := by
  rw [append]
  constructor
  · intro h
    obtain ⟨m, r, h, rfl, rfl, hq, hlast⟩ := h
    exact ⟨h, hq, hlast.symm⟩
  · intro h
    exact ⟨x, back x, h.1, rfl, rfl, h.2.1, h.2.2.symm⟩

theorem last_eq (hl : Segment next back p prev l q last) : last ∈ l ∨ (l = [] ∧ last = prev) := by
  induction l generalizing p prev with
  | nil => exact .inr ⟨rfl, hl.2.symm⟩
  | cons x l ih =>
    left
    rcases ih hl.2.2 with hmem | ⟨-, rfl⟩
    · exact List.mem_cons_of_mem _ hmem
    · exact List.mem_cons_self

theorem first_eq (hl : Segment next back p prev l q last) : p ∈ l ∨ (l = [] ∧ p = q) := by
  cases l with
  | nil => exact .inr ⟨rfl, hl.1⟩
  | cons x l =>
    rw [hl.1]
    exact .inl List.mem_cons_self

end Segment

namespace Linked

theorem congr (hl : Linked next back null p l) (hnext : ∀ y ∈ l, next' y = next y)
    (hback : ∀ y ∈ l, back' y = back y) : Linked next' back' null p l where
  links := hl.links.imp fun _ h => h.congr hnext hback
  apart := hl.apart
  nodup := hl.nodup

variable (next back null) in
theorem nil : Linked next back null null [] := ⟨⟨null, rfl, rfl⟩, List.not_mem_nil, List.nodup_nil⟩

theorem ne_null (hl : Linked next back null p l) (hx : x ∈ l) :
    x ≠ null := fun heq => hl.apart (heq ▸ hx)

theorem eq_nil_iff (hl : Linked next back null p l) : l = [] ↔ p = null := by
  obtain ⟨last, h⟩ := hl.links
  rcases h.first_eq with hp | ⟨rfl, hp⟩
  · simp [List.ne_nil_of_mem hp, hl.ne_null hp]
  · simp [hp]

theorem head_mem (hl : Linked next back null p l) (hp : p ≠ null) : p ∈ l := by
  obtain ⟨last, h⟩ := hl.links
  exact h.first_eq.resolve_right fun hq => hp hq.2

/-- The list from its second node on. -/
theorem eq_cons (hl : Linked next back null p l) (hp : p ≠ null) :
    ∃ l', l = p :: l' ∧ back p = null ∧ ∃ last, Segment next back (next p) p l' null last := by
  obtain ⟨last, h⟩ := hl.links
  cases l with
  | nil => exact absurd h.1 hp
  | cons x l =>
    obtain ⟨rfl, hback, h⟩ := h
    exact ⟨l, rfl, hback, last, h⟩

/-- The node before one of the list, if it is not the first. -/
theorem back_mem (hl : Linked next back null p (l₁ ++ x :: l₂)) :
    back x ∈ l₁ ∨ (l₁ = [] ∧ back x = null) := by
  obtain ⟨last, h⟩ := hl.links
  obtain ⟨m, r, h₁, -, hr, -⟩ := Segment.append.1 h
  rw [hr]
  exact h₁.last_eq

/-- The node after one of the list, if it is not the last. -/
theorem next_mem (hl : Linked next back null p (l₁ ++ x :: l₂)) :
    next x ∈ l₂ ∨ (l₂ = [] ∧ next x = null) := by
  obtain ⟨last, h⟩ := hl.links
  obtain ⟨m, r, -, -, -, h₂⟩ := Segment.append.1 h
  exact h₂.first_eq

/-- Only the first node has none before it. -/
theorem back_ne_null (hl : Linked next back null p l) (hx : x ∈ l) (hne : x ≠ p) :
    back x ≠ null := by
  obtain ⟨l₁, l₂, rfl⟩ := List.append_of_mem hx
  rcases hl.back_mem with hmem | ⟨rfl, -⟩
  · exact hl.ne_null (List.mem_append_left _ hmem)
  · obtain ⟨last, h⟩ := hl.links
    exact absurd h.1.symm hne

/-- A node is put before the first one. -/
theorem push (hl : Linked next back null p l) (hx : x ∉ l) (hne : x ≠ null) (hnext : next' x = p)
    (hback : back' x = null)
    (hfirst : p ≠ null → back' p = x) (hnexts : ∀ y ∈ l, next' y = next y)
    (hbacks : ∀ y ∈ l, y ≠ p → back' y = back y) : Linked next' back' null x (x :: l) where
  links := by
    obtain ⟨last, h⟩ := hl.links
    cases l with
    | nil => exact ⟨x, rfl, hback, hnext.trans h.1, rfl⟩
    | cons y l =>
      obtain ⟨rfl, -, h⟩ := h
      have hy := hl.ne_null (x := p) (by simp)
      have hyl : p ∉ l := (List.nodup_cons.1 hl.nodup).1
      refine ⟨last, rfl, hback, hnext, hfirst hy, ?_⟩
      rw [hnexts p (by simp)]
      refine h.congr (fun z hz => hnexts z (by simp [hz])) fun z hz => hbacks z (by simp [hz]) ?_
      exact fun heq => hyl (heq ▸ hz)
  apart := by
    intro hmem
    rcases List.mem_cons.1 hmem with heq | hmem
    · exact hne heq.symm
    · exact hl.apart hmem
  nodup := List.nodup_cons.2 ⟨hx, hl.nodup⟩

/-- A node is taken out: what is before it and what is after it are linked. -/
theorem unlink (hl : Linked next back null p (l₁ ++ x :: l₂))
    (hprev : back x ≠ null → next' (back x) = next x ∧ p' = p)
    (hfirst : back x = null → p' = next x) (hnext : next x ≠ null → back' (next x) = back x)
    (hnexts : ∀ y ∈ l₁ ++ l₂, y ≠ back x → next' y = next y) (hbacks : ∀ y ∈ l₁ ++ l₂, y ≠ next x →
      back' y = back y) :
    Linked next' back' null p' (l₁ ++ l₂) := by
  have hperm : (l₁ ++ x :: l₂).Perm (x :: (l₁ ++ l₂)) := List.perm_middle
  have hnodup : (l₁ ++ l₂).Nodup := (List.nodup_cons.1 (hperm.nodup_iff.1 hl.nodup)).2
  have hnull : null ∉ l₁ ++ l₂ := fun h => hl.apart (hperm.mem_iff.2 (List.mem_cons_of_mem _ h))
  have hb := hl.back_mem
  have hn := hl.next_mem
  -- what is before the node is not after it, and conversely
  have hbl : back x ∉ l₂ := fun h => by
    rcases hb with hmem | ⟨-, heq⟩
    · exact (List.nodup_append.1 hnodup).2.2 _ hmem _ h rfl
    · exact hnull (heq ▸ List.mem_append_right _ h)
  have hnl : next x ∉ l₁ := fun h => by
    rcases hn with hmem | ⟨-, heq⟩
    · exact (List.nodup_append.1 hnodup).2.2 _ h _ hmem rfl
    · exact hnull (heq ▸ List.mem_append_left _ h)
  obtain ⟨last, h⟩ := hl.links
  obtain ⟨m, r, h₁, rfl, rfl, h₂⟩ := Segment.append.1 h
  refine ⟨?_, hnull, hnodup⟩
  have hleft : Segment next' back' p' null l₁ (next m) (back m) := by
    rcases List.eq_nil_or_concat l₁ with rfl | ⟨l, y, rfl⟩
    · exact ⟨hfirst h₁.2.symm, h₁.2⟩
    · rw [List.concat_eq_append] at h₁ hnl hnodup hnull hnexts hbacks ⊢
      obtain ⟨h₁, -, hy⟩ := Segment.concat.1 h₁
      have hyl : y ∉ l := fun hmem => by
        have hnodup := (List.nodup_append.1 hnodup).1
        exact (List.nodup_append.1 hnodup).2.2 _ hmem _ (by simp) rfl
      have hne : back m ≠ null := by
        rw [hy]
        exact fun heq => hnull (heq ▸ by simp)
      obtain ⟨hnext', rfl⟩ := hprev hne
      refine Segment.concat.2 ⟨?_, by rw [← hy, hnext'], hy⟩
      rw [hbacks y (by simp) fun heq => hnl (by simp [← heq])]
      refine h₁.congr (fun z hz => hnexts z (by simp [hz]) ?_) fun z hz => hbacks z
        (by simp [hz]) ?_
      · rw [hy]
        exact fun heq => hyl (heq ▸ hz)
      · exact fun heq => hnl (by simp [← heq, hz])
  cases l₂ with
  | nil => exact ⟨back m, Segment.append.2 ⟨_, _, hleft, h₂.1, rfl⟩⟩
  | cons y l =>
    obtain ⟨hy, -, h₂⟩ := h₂
    have hyl : y ∉ l := (List.nodup_cons.1 (List.nodup_append.1 hnodup).2.1).1
    have hne : next m ≠ null := by
      rw [hy]
      exact fun heq => hnull (heq ▸ by simp)
    refine ⟨last, Segment.append.2 ⟨_, _, hleft, hy, by rw [← hy, hnext hne], ?_⟩⟩
    rw [hnexts y (by simp) fun heq => hbl (by simp [← heq])]
    refine h₂.congr (fun z hz => hnexts z (by simp [hz]) ?_) fun z hz => hbacks z (by simp [hz]) ?_
    · exact fun heq => hbl (by simp [← heq, hz])
    · rw [hy]
      exact fun heq => hyl (heq ▸ hz)

end Linked

end LinkedLists
