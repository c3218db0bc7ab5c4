/-
What the frame operations do to the heap of bags: some bags' sets move to a
target bag (`Absorbed`), the others stay where they are.
-/
import CilkTools.Cilksan.Hooks

namespace Cilksan

/-- From `h` to `h'`, the sets of the bags `m` have moved to bag `t` and the
bags `g`, these among them, are gone or about to be deleted. -/
structure Absorbed (h h' : Bags) (t : Nat) (m g : Nat → Prop) : Prop where
  wf : h'.WF
  bag : ∀ {b x}, ¬ g b → b ≠ t → h.bag b = some x → h'.bag b = some x
  self : ∀ {x}, ¬ g t → h.bag t = some x →
    ∃ ds, h'.bag t = some { x with ds } ∧ (x.ds.isSome → ds.isSome)
  good : ∀ {b}, ¬ g b → h.Good b → h'.Good b
  moved : ∀ {d b}, m b → h.Owned d b → h'.Owned d t
  kept : ∀ {d b}, ¬ g b → h.Owned d b → h'.Owned d b

/-- `b` is a bag of type `t` in good order; an S-bag has a set. -/
def Bags.Is (h : Bags) (b : Nat) (t : BagType) : Prop :=
  h.Good b ∧ ∃ x, h.bag b = some x ∧ x.type = t ∧ (t = .sBag → x.ds.isSome)

theorem Bags.Is.type_eq {h : Bags} {b : Nat} {t t' : BagType} (h₁ : h.Is b t)
    (h₂ : h.Is b t') : t = t' := by
  obtain ⟨-, x, hx, rfl, -⟩ := h₁
  obtain ⟨-, y, hy, rfl, -⟩ := h₂
  rw [hx] at hy
  cases hy
  rfl

theorem Bags.Is.live {h : Bags} {b : Nat} {t : BagType} (hb : h.Is b t) : h.bag b ≠ none := by
  obtain ⟨-, x, hx, -⟩ := hb
  simp [hx]

theorem Bags.Keeps.is {h h' : Bags} {b b' : Nat} {t : BagType} (hk : h.Keeps h' b) (hne : b' ≠ b)
    (hb : h.Is b' t) : h'.Is b' t := by
  obtain ⟨hg, x, hx, ht⟩ := hb
  exact ⟨hk.good hne hg, x, by rw [hk.bag hne]; exact hx, ht⟩

namespace Absorbed

variable {h h' h'' : Bags} {t b : Nat} {m g m' g' : Nat → Prop}

theorem refl (hw : h.WF) : Absorbed h h t (fun _ => False) (fun _ => False) where
  wf := hw
  bag _ _ hx := hx
  self {x} _ hx := ⟨x.ds, hx, id⟩
  good _ hg := hg
  moved hm := hm.elim
  kept _ ho := ho

theorem trans (h₁ : Absorbed h h' t m g) (h₂ : Absorbed h' h'' t m' g') (ht : ¬ g' t)
    (hm : ∀ b, m' b → ¬ g b) : Absorbed h h'' t (fun b => m b ∨ m' b) (fun b => g b ∨ g' b) where
  wf := h₂.wf
  bag hg hne hx := h₂.bag (fun h => hg (.inr h)) hne (h₁.bag (fun h => hg (.inl h)) hne hx)
  self hg hx := by
    obtain ⟨ds, hx', hds⟩ := h₁.self (fun h => hg (.inl h)) hx
    obtain ⟨ds', hx'', hds'⟩ := h₂.self (fun h => hg (.inr h)) hx'
    exact ⟨ds', hx'', fun h => hds' (hds h)⟩
  good hg h := h₂.good (fun h => hg (.inr h)) (h₁.good (fun h => hg (.inl h)) h)
  moved hmb ho := by
    rcases hmb with hmb | hmb
    · exact h₂.kept ht (h₁.moved hmb ho)
    · exact h₂.moved hmb (h₁.kept (hm _ hmb) ho)
  kept hg ho := h₂.kept (fun h => hg (.inr h)) (h₁.kept (fun h => hg (.inl h)) ho)

/-- Fewer bags may be said to have moved and more to be gone. -/
theorem mono (h₁ : Absorbed h h' t m g) (hm : ∀ b, m' b → m b) (hg : ∀ b, g b → g' b) :
    Absorbed h h' t m' g' where
  wf := h₁.wf
  bag hgb := h₁.bag fun h => hgb (hg _ h)
  self hgt := h₁.self fun h => hgt (hg _ h)
  good hgb := h₁.good fun h => hgb (hg _ h)
  moved hmb := h₁.moved (hm _ hmb)
  kept hgb := h₁.kept fun h => hgb (hg _ h)

/-- What was not there at first cannot be gone. -/
theorem mono_live (h₁ : Absorbed h h' t m g) (hg : ∀ b, g b → h.bag b ≠ none → g' b) :
    Absorbed h h' t m g' where
  wf := h₁.wf
  bag hgb hne hx := h₁.bag (fun h => hgb (hg _ h (by simp [hx]))) hne hx
  self hgt hx := h₁.self (fun h => hgt (hg _ h (by simp [hx]))) hx
  good hgb hb := h₁.good (fun h => hgb (hg _ h (by obtain ⟨x, hx, -⟩ := hb; simp [hx]))) hb
  moved := h₁.moved
  kept hgb ho := h₁.kept (fun h => hgb (hg _ h (by obtain ⟨_, x, -, -, hx, -⟩ := ho; simp [hx]))) ho

/-- What first moved to bag `p` moves on to `t` with it. -/
theorem trans_into {p : Nat} (h₁ : Absorbed h h' p m g) (h₂ : Absorbed h' h'' t m' g')
    (hp : m' p) (hgp : g' p) (ht : t ≠ p) (hm : ∀ b, m' b → ¬ g b) :
    Absorbed h h'' t (fun b => m b ∨ m' b) (fun b => g b ∨ g' b) where
  wf := h₂.wf
  bag hg hne hx := by
    refine h₂.bag (fun h => hg (.inr h)) hne (h₁.bag (fun h => hg (.inl h)) ?_ hx)
    rintro rfl
    exact hg (.inr hgp)
  self hg hx := h₂.self (fun h => hg (.inr h)) (h₁.bag (fun h => hg (.inl h)) ht hx)
  good hg h := h₂.good (fun h => hg (.inr h)) (h₁.good (fun h => hg (.inl h)) h)
  moved hmb ho := by
    rcases hmb with hmb | hmb
    · exact h₂.moved hp (h₁.moved hmb ho)
    · exact h₂.moved hmb (h₁.kept (hm _ hmb) ho)
  kept hg ho := h₂.kept (fun h => hg (.inr h)) (h₁.kept (fun h => hg (.inl h)) ho)

theorem is (h₁ : Absorbed h h' t m g) {ty : BagType} (hg : ¬ g b) (hb : h.Is b ty) :
    h'.Is b ty := by
  obtain ⟨hgood, x, hx, hty, hds⟩ := hb
  refine ⟨h₁.good hg hgood, ?_⟩
  by_cases hbt : b = t
  · subst hbt
    obtain ⟨ds, hx', hds'⟩ := h₁.self hg hx
    exact ⟨_, hx', hty, fun h => hds' (hds h)⟩
  · exact ⟨x, h₁.bag hg hbt hx, hty, hds⟩

theorem version (h₁ : Absorbed h h' t m g) {x : SPBag} (hg : ¬ g b) (hx : h.bag b = some x) :
    ∃ x', h'.bag b = some x' ∧ x'.version = x.version := by
  by_cases hbt : b = t
  · subst hbt
    obtain ⟨ds, hx', -⟩ := h₁.self hg hx
    exact ⟨_, hx', rfl⟩
  · exact ⟨x, h₁.bag hg hbt hx, rfl⟩

theorem of_combined (hc : h.Combined h' t b) (hne : t ≠ b) (hg : h.Good b) :
    Absorbed h h' t (· = b) (· = b) where
  wf := hc.wf
  bag _ hne hx := by rw [hc.bag hne]; exact hx
  self _ hx := by
    obtain ⟨y, hy, _⟩ := hg
    obtain ⟨ds, hx', hds⟩ := hc.self hx hy
    exact ⟨ds, hx', fun h => hds (.inl h)⟩
  good hgb h := hc.good hgb h
  moved hmb ho := by
    subst hmb
    have := hc.owned ho
    rwa [if_pos rfl] at this
  kept hgb ho := by
    have := hc.owned ho
    rwa [if_neg hgb] at this

theorem of_fresh {c : Nat} (hc : h.bag c = none) (hk : h.Keeps h' c) :
    Absorbed h h' t (fun _ => False) (fun _ => False) := by
  have hne : ∀ {b x}, h.bag b = some x → b ≠ c := fun hx => by rintro rfl; rw [hc] at hx; cases hx
  refine ⟨hk.wf, fun _ _ hx => ?_, fun {x} _ hx => ⟨x.ds, ?_, id⟩, fun _ hg => ?_,
    fun hm => hm.elim, fun _ ho => ?_⟩
  · rw [hk.bag (hne hx)]; exact hx
  · rw [hk.bag (hne hx)]; exact hx
  · obtain ⟨x, hx, _⟩ := id hg
    exact hk.good (hne hx) hg
  · obtain ⟨_, x, _, _, hx, _⟩ := id ho
    exact hk.owned (hne hx) ho

theorem of_delete (hw : h.WF) {o : Option Nat} (ht : o ≠ some t) :
    Absorbed h (h.delete o) t (fun _ => False) (o = some ·) := by
  cases o with
  | none => exact (refl hw).mono (fun _ h => h) fun _ h => h.elim
  | some b =>
    have hne : t ≠ b := by simpa [eq_comm] using ht
    simp only [Bags.delete]
    have hk : h.Keeps (h.deleteBag b) b := by
      cases hb : h.bag b with
      | none => simp only [Bags.deleteBag, hb]; exact ⟨hw, fun _ => rfl, fun _ h => h, fun _ h => h⟩
      | some x => exact (Bags.deleteBag_spec hw hb).2.2
    refine ⟨hk.wf, fun hg _ hx => ?_, fun {x} _ hx => ⟨x.ds, ?_, id⟩, fun hg hgb => ?_,
      fun hm => hm.elim, fun hg ho => ?_⟩
    · rw [hk.bag (by simpa [eq_comm] using hg)]; exact hx
    · rw [hk.bag hne]; exact hx
    · exact hk.good (by simpa [eq_comm] using hg) hgb
    · exact hk.owned (by simpa [eq_comm] using hg) ho

end Absorbed

/-! ## Arrays of P-bags -/

/-- No bag twice in an array. -/
def Distinct (l : List (Option Nat)) : Prop :=
  ∀ i j b : Nat, l[i]? = some (some b) → l[j]? = some (some b) → i = j

theorem Distinct.tail {a l} (h : Distinct (a :: l)) : Distinct l := fun i j b hi hj => by
  have := h (i + 1) (j + 1) b (by simpa using hi) (by simpa using hj)
  omega

theorem Distinct.head {b l} (h : Distinct (some b :: l)) : some b ∉ l := fun hm => by
  obtain ⟨i, hi⟩ := List.mem_iff_getElem?.1 hm
  have := h 0 (i + 1) b (by simp) (by simpa using hi)
  omega

theorem combineAll_spec {p : Nat} : ∀ {l : List (Option Nat)} {h : Bags}, h.WF →
    h.Good p → Distinct l → (∀ b, some b ∈ l → h.Good b ∧ p ≠ b) →
    ∃ h', CilkSan.combineAll h p l = some h' ∧ Absorbed h h' p (some · ∈ l) (some · ∈ l)
  | [], h, hw, _, _, _ => ⟨h, rfl, (Absorbed.refl hw).mono (by simp) (by simp)⟩
  | none :: l, h, hw, hp, hd, hl => by
    obtain ⟨h', hf, ha⟩ := combineAll_spec hw hp hd.tail fun b hb => hl b (by simp [hb])
    exact ⟨h', by simpa [CilkSan.combineAll] using hf, ha.mono (by simp) (by simp)⟩
  | some b :: l, h, hw, hp, hd, hl => by
    obtain ⟨hb, hne⟩ := hl b (by simp)
    obtain ⟨h₁, hc, hcomb⟩ := Bags.combine_spec hw hp hb hne
    have h₁a := Absorbed.of_combined hcomb hne hb
    have hbl := hd.head
    obtain ⟨h', hf, ha⟩ := combineAll_spec h₁a.wf (h₁a.good hne hp) hd.tail fun c hcl => by
      obtain ⟨hgc, hpc⟩ := hl c (by simp [hcl])
      exact ⟨h₁a.good (fun hcb => hbl (hcb ▸ hcl)) hgc, hpc⟩
    refine ⟨h', by simpa [CilkSan.combineAll, hc] using hf,
      (h₁a.trans ha (fun hpl => (hl p (by simp [hpl])).2 rfl) ?_).mono (by simp) (by simp)⟩
    rintro c hcl rfl
    exact hbl hcl

theorem deleteAll_spec {t : Nat} : ∀ {l : List (Option Nat)} {h : Bags}, h.WF → some t ∉ l →
    Absorbed h (l.foldl Bags.delete h) t (fun _ => False) (some · ∈ l)
  | [], _, hw, _ => (Absorbed.refl hw).mono (by simp) (by simp)
  | o :: l, h, hw, ht => by
    simp only [List.mem_cons, not_or] at ht
    have h₁ := Absorbed.of_delete hw (o := o) (t := t) (Ne.symm ht.1)
    have h₂ := deleteAll_spec h₁.wf ht.2
    exact (h₁.trans h₂ ht.2 (by simp)).mono (by simp) fun b => by simp [eq_comm]

/-! ## Frames -/

namespace FrameData

/-- The P-bag of a region. -/
def pbag (f : FrameData) (r : Nat) : Option Nat := ((f.pbags.getD [])[r]?).join

/-- `b` is one of the frame's bags. -/
def Has (f : FrameData) (b : Nat) : Prop :=
  f.sbag = some b ∨ (∃ r, f.pbag r = some b) ∨ f.iterbag = some b

theorem pbag_iff {f : FrameData} {r b : Nat} : f.pbag r = some b ↔
    (f.pbags.getD [])[r]? = some (some b) := by
  simp [pbag, Option.join_eq_some_iff]

theorem mem_pbags {f : FrameData} {b : Nat} : some b ∈ f.pbags.getD [] ↔
    ∃ r, f.pbag r = some b := by
  simp only [List.mem_iff_getElem?, pbag_iff]

/-- The frame with the P-bag of a region in its array replaced. -/
def withPbag (f : FrameData) (r : Nat) (p : Option Nat) : FrameData :=
  { f with pbags := some ((f.pbags.getD []).set r p) }

theorem pbag_withPbag {f : FrameData} {r : Nat} (hr : r < (f.pbags.getD []).length)
    (p : Option Nat) (r' : Nat) : (f.withPbag r p).pbag r' = if r' = r then p else f.pbag r' := by
  by_cases h : r' = r
  · subst h; simp [withPbag, pbag, hr]
  · simp [withPbag, pbag, h, List.getElem?_set_ne (Ne.symm h)]

theorem setPbag_eq {f : FrameData} {r : Nat} (hr : r < (f.pbags.getD []).length)
    (p : Option Nat) (h : Bags) : f.setPbag r p h = some (f.withPbag r p, h.delete (f.pbag r)) := by
  cases hf : f.pbags with
  | none => simp [hf] at hr
  | some l =>
    simp only [hf, Option.getD_some] at hr
    simp [setPbag, hf, withPbag, pbag, List.getElem?_eq_getElem hr]

/-- The P-bag is the one that was there, or new and empty. -/
theorem lazyPbag_spec {f : FrameData} {r : Nat} {h : Bags} (hw : h.WF)
    (hr : r < (f.pbags.getD []).length) (hp : ∀ p, f.pbag r = some p → h.Is p .pBag) :
    ∃ p h', f.lazyPbag r h = some (p, f.withPbag r (some p), h') ∧
      (f.pbag r = some p ∨ f.pbag r = none ∧ h.bag p = none) ∧ h'.Is p .pBag ∧
      Absorbed h h' p (fun _ => False) (fun _ => False) := by
  cases hf : f.pbags with
  | none => simp [hf] at hr
  | some l =>
    have hr' : r < l.length := by simpa [hf] using hr
    cases hl : l.get ⟨r, hr'⟩ with
    | some p =>
      rw [List.get_eq_getElem] at hl
      have hpb : f.pbag r = some p := by simp [pbag, hf, hr', hl]
      refine ⟨p, h, ?_, .inl hpb, hp p hpb, .refl hw⟩
      have hset : f.withPbag r (some p) = f := by
        have : l.set r (some p) = l := by rw [← hl, List.set_getElem_self]
        simp [withPbag, hf, this]
        cases f
        simp_all
      rw [hset]
      simp [lazyPbag, hf, hr', hl]
    | none =>
      rw [List.get_eq_getElem] at hl
      obtain ⟨hn, hs, hsets, hk⟩ := Bags.alloc_spec hw .pBag
      have hpb : f.pbag r = none := by simp [pbag, hf, hr', hl]
      refine ⟨(h.alloc .pBag).1, (h.alloc .pBag).2, ?_, .inr ⟨hpb, hn⟩,
        ⟨⟨_, hs, by simp⟩, _, hs, rfl, by simp⟩, .of_fresh hn hk⟩
      have := setPbag_eq hr (some (h.alloc .pBag).1) (h.alloc .pBag).2
      rw [hpb] at this
      simp [lazyPbag, hf, hr', hl, Bags.createNewPBag, this, Bags.delete]

/-- The frame's bags are of their types and distinct. -/
structure Ok (f : FrameData) (h : Bags) : Prop where
  sbag : ∃ s, f.sbag = some s ∧ h.Is s .sBag
  pbag : ∀ {r p}, f.pbag r = some p → h.Is p .pBag
  distinct : Distinct (f.pbags.getD [])
  iterbag : ∀ {i}, f.iterbag = some i → h.Is i .sBag ∧ f.sbag ≠ some i

theorem Ok.live {f : FrameData} {h : Bags} (hf : f.Ok h) {b : Nat} (hb : f.Has b) :
    h.bag b ≠ none := by
  rcases hb with hb | ⟨r, hb⟩ | hb
  · obtain ⟨s, hs, his⟩ := hf.sbag
    rw [hs] at hb
    cases hb
    exact his.live
  · exact (hf.pbag hb).live
  · exact (hf.iterbag hb).1.live

theorem Ok.absorbed {f : FrameData} {h h' : Bags} {t : Nat} {m g : Nat → Prop} (hf : f.Ok h)
    (ha : Absorbed h h' t m g) (hg : ∀ b, f.Has b → ¬ g b) : f.Ok h' where
  sbag := by
    obtain ⟨s, hs, his⟩ := hf.sbag
    exact ⟨s, hs, ha.is (hg s (.inl hs)) his⟩
  pbag {r p} hp := ha.is (hg p (.inr (.inl ⟨r, hp⟩))) (hf.pbag hp)
  distinct := hf.distinct
  iterbag {i} hi := ⟨ha.is (hg i (.inr (.inr hi))) (hf.iterbag hi).1, (hf.iterbag hi).2⟩

/-- No bag belongs to both frames. -/
def Apart (f f' : FrameData) : Prop := ∀ b, f.Has b → ¬ f'.Has b

theorem length_withPbag (f : FrameData) (r : Nat) (p : Option Nat) :
    ((f.withPbag r p).pbags.getD []).length = (f.pbags.getD []).length := by simp [withPbag]

theorem distinct_of_pbag {f f' : FrameData} {r p : Nat} (hf : Distinct (f.pbags.getD []))
    (hpb : ∀ r', f'.pbag r' = if r' = r then some p else f.pbag r')
    (hne : f.pbag r = some p ∨ ∀ r', f.pbag r' ≠ some p) : Distinct (f'.pbags.getD []) := by
  intro i j b hi hj
  rw [← pbag_iff, hpb] at hi hj
  have hp : ∀ {k}, k ≠ r → f.pbag k ≠ some p := fun hk hkp => by
    rcases hne with hne | hne
    · rw [pbag_iff] at hkp hne
      exact hk (hf _ _ _ hkp hne)
    · exact hne _ hkp
  by_cases hir : i = r
  · rw [if_pos hir] at hi
    cases hi
    by_cases hjr : j = r
    · rw [hir, hjr]
    · rw [if_neg hjr] at hj
      exact absurd hj (hp hjr)
  · rw [if_neg hir] at hi
    by_cases hjr : j = r
    · rw [if_pos hjr] at hj
      cases hj
      exact absurd hi (hp hir)
    · rw [if_neg hjr] at hj
      exact hf i j b (pbag_iff.1 hi) (pbag_iff.1 hj)

theorem Ok.withPbag {f : FrameData} {h : Bags} (hf : f.Ok h) {r p : Nat}
    (hr : r < (f.pbags.getD []).length)
    (hp : h.Is p .pBag) (hne : f.pbag r = some p ∨ ∀ r', f.pbag r' ≠ some p) :
    (f.withPbag r (some p)).Ok h where
  sbag := hf.sbag
  pbag {r' p'} hp' := by
    rw [pbag_withPbag hr] at hp'
    split at hp'
    · cases hp'; exact hp
    · exact hf.pbag hp'
  distinct := distinct_of_pbag hf.distinct (pbag_withPbag hr _) hne
  iterbag := hf.iterbag

theorem Ok.withoutPbag {f : FrameData} {h : Bags} (hf : f.Ok h) {r : Nat}
    (hr : r < (f.pbags.getD []).length) : (f.withPbag r none).Ok h where
  sbag := hf.sbag
  pbag {r' p'} hp' := by
    rw [pbag_withPbag hr] at hp'
    split at hp'
    · cases hp'
    · exact hf.pbag hp'
  distinct := fun i j b hi hj => by
    rw [← pbag_iff, pbag_withPbag hr] at hi hj
    split at hi
    · cases hi
    · split at hj
      · cases hj
      · exact hf.distinct i j b (pbag_iff.1 hi) (pbag_iff.1 hj)
  iterbag := hf.iterbag

end FrameData

/-! ## Returning to the parent -/

namespace CilkSan

open FrameData

/-- Deleting a returning child's S-bag and P-bags. -/
theorem deleteChild_spec {child : FrameData} {h : Bags} {t : Nat} (hw : h.WF) (ht : ¬ child.Has t) :
    Absorbed h (child.clearPbagArray (child.setSbag none h).2).2 t (fun _ => False)
      (fun b => child.sbag = some b ∨ ∃ r, child.pbag r = some b) := by
  have hs : child.sbag ≠ some t := fun h => ht (.inl h)
  have hp : some t ∉ child.pbags.getD [] := fun h => ht (.inr (.inl (mem_pbags.1 h)))
  have h₁ := Absorbed.of_delete hw hs
  have h₂ := deleteAll_spec h₁.wf hp
  refine (h₁.trans h₂ hp fun _ h => h.elim).mono (fun _ h => h.elim) fun b hb => ?_
  rcases hb with hb | hb
  · exact .inl hb
  · exact .inr (mem_pbags.1 hb)

theorem combineUsed_spec (used : Bool) {h : Bags} {b that : Nat} (hw : h.WF) (hb : h.Good b)
    (ht : h.Good that) (hne : b ≠ that) :
    ∃ h', combineUsed used h (some b) (some that) = some h' ∧
      Absorbed h h' b (fun c => used ∧ c = that) (fun c => used ∧ c = that) := by
  cases used with
  | false => exact ⟨h, rfl, (Absorbed.refl hw).mono (by simp) (by simp)⟩
  | true =>
    obtain ⟨h', hcomb, hc⟩ := Bags.combine_spec hw hb ht hne
    exact ⟨h', hcomb, (Absorbed.of_combined hc hne ht).mono (by simp) (by simp)⟩

theorem mergeDetached_spec {child parent : FrameData} {r : Nat} {h : Bags} (hw : h.WF)
    (hc : child.Ok h)
    (hp : parent.Ok h) (hap : child.Apart parent) (hr : r < (parent.pbags.getD []).length) :
    ∃ p h', mergeDetached child parent r h = some (parent.withPbag r (some p), h') ∧
      (parent.pbag r = some p ∨ parent.pbag r = none ∧ h.bag p = none) ∧ h'.Is p .pBag ∧
      Absorbed h h' p (fun b => child.sbagUsed ∧ child.sbag = some b ∨ ∃ r, child.pbag r = some b)
        (fun b => child.sbagUsed ∧ child.sbag = some b ∨ ∃ r, child.pbag r = some b) := by
  obtain ⟨p, h₁, hl, hpp, hpi, ha₁⟩ := lazyPbag_spec hw hr fun p hp' => hp.pbag hp'
  -- The P-bag is none of the child's.
  have hpc : ∀ b, child.Has b → p ≠ b := by
    rintro b hb rfl
    rcases hpp with hpp | hpp
    · exact hap p hb (.inr (.inl ⟨r, hpp⟩))
    · exact hc.live hb hpp.2
  have hc₁ := hc.absorbed ha₁ fun _ _ h => h
  obtain ⟨s, hs, hsi⟩ := hc₁.sbag
  obtain ⟨h₂, hh₂, ha₂⟩ := combineUsed_spec child.sbagUsed ha₁.wf hpi.1 hsi.1 (hpc s (.inl hs))
  simp only [← hs] at hh₂
  replace ha₂ : Absorbed h₁ h₂ p (fun b => child.sbagUsed ∧ child.sbag = some b)
      (fun b => child.sbagUsed ∧ child.sbag = some b) :=
    ha₂.mono (fun b hb => ⟨hb.1, by rw [hs] at hb; exact (Option.some.inj hb.2).symm⟩)
      (fun b hb => ⟨hb.1, by rw [hs, hb.2]⟩)
  have hps : ¬ (child.sbagUsed = true ∧ child.sbag = some p) := fun h => hpc p (.inl h.2) rfl
  have hpi₂ := ha₂.is hps hpi
  -- An S-bag is no P-bag.
  have hsp : ∀ b, some b ∈ child.pbags.getD [] →
      ¬ (child.sbagUsed = true ∧ child.sbag = some b) := by
    rintro b hb ⟨-, hsb⟩
    obtain ⟨r, hb⟩ := mem_pbags.1 hb
    rw [hs] at hsb
    cases hsb
    exact absurd (hsi.type_eq (hc₁.pbag hb)) (by simp)
  obtain ⟨h₃, hh₃, ha₃⟩ :=
    combineAll_spec (p := p) (l := child.pbags.getD []) ha₂.wf hpi₂.1 hc.distinct
      fun b hb => by
        obtain ⟨r, hrb⟩ := mem_pbags.1 hb
        exact ⟨ha₂.good (hsp b hb) (hc₁.pbag hrb).1, hpc b (.inr (.inl ⟨r, hrb⟩))⟩
  have hpp₃ : ¬ some p ∈ child.pbags.getD [] := fun h => hpc p (.inr (.inl (mem_pbags.1 h))) rfl
  refine ⟨p, h₃, ?_, hpp, ha₃.is hpp₃ hpi₂, ?_⟩
  · simp only [mergeDetached, hl, Option.bind_eq_bind, Option.bind_some, hh₂, hh₃]
    rfl
  · refine ((ha₁.trans ha₂ hps fun _ _ h => h).trans ha₃ hpp₃ fun b hb h => ?_).mono
      (fun b hb => ?_) fun b hb => ?_
    · exact hsp b hb (h.resolve_left id)
    · rcases hb with hb | hb
      · exact .inl (.inr hb)
      · exact .inr (mem_pbags.2 hb)
    · rcases hb with (hb | hb) | hb
      · exact hb.elim
      · exact .inl hb
      · exact .inr (mem_pbags.1 hb)

/-- A returning task leaves all it has to the parent's P-bag. -/
theorem returnFromDetach_spec {c : CilkSan} {child parent : FrameData}
    {fs : List FrameData} {r : Nat}
    (hfr : c.frames = child :: parent :: fs) (hw : c.bags.WF) (hc : child.Ok c.bags)
    (hi : child.iterbag = none)
    (hp : parent.Ok c.bags) (hap : child.Apart parent) (hr : r < (parent.pbags.getD []).length) :
    ∃ p h', c.returnFromDetach r =
    some { c with bags := h', frames := parent.withPbag r (some p) :: fs } ∧
      (parent.pbag r = some p ∨ parent.pbag r = none ∧ c.bags.bag p = none) ∧ h'.Is p .pBag ∧
      Absorbed c.bags h' p (fun b => child.sbagUsed ∧ child.sbag = some b ∨
        ∃ r, child.pbag r = some b)
        child.Has := by
  obtain ⟨p, h₁, hm, hpp, hpi, ha⟩ := mergeDetached_spec hw hc hp hap hr
  have hpc : ¬ child.Has p := fun hb => by
    rcases hpp with hpp | hpp
    · exact hap p hb (.inr (.inl ⟨r, hpp⟩))
    · exact hc.live hb hpp.2
  have hd := deleteChild_spec ha.wf hpc
  refine ⟨p, (child.clearPbagArray (child.setSbag none h₁).2).2, ?_, hpp, hd.is ?_ hpi,
    (ha.trans hd ?_ fun _ h => h.elim).mono (fun b hb => .inl hb) ?_⟩
  · simp [returnFromDetach, mergeBagFromReturningChild, hfr, hm, exitFunction, reset, setSbag,
      clearPbagArray, setIterbag, Bags.delete, hi]
  · exact fun h => hpc (h.imp_right .inl)
  · exact fun h => hpc (h.imp_right .inl)
  · rintro b ((⟨-, hb⟩ | hb) | hb | hb)
    · exact .inl hb
    · exact .inr (.inl hb)
    · exact .inl hb
    · exact .inr (.inl hb)

/-- A returning function that has synced leaves its S-bag to the parent's. -/
theorem leaveCilkFunction_spec {c : CilkSan} {child parent : FrameData}
    {fs : List FrameData} {r s : Nat}
    (hfr : c.frames = child :: parent :: fs) (hw : c.bags.WF) (hc : child.Ok c.bags)
    (hi : child.iterbag = none)
    (hn : ∀ r, child.pbag r = none) (hp : parent.Ok c.bags) (hap : child.Apart parent)
    (hs : parent.sbag = some s) :
    ∃ h', c.leaveCilkFunction r = some { c with
        bags := h', frames :=
          { parent with sbagUsed := parent.sbagUsed || child.sbagUsed } :: fs } ∧
      Absorbed c.bags h' s (fun b => child.sbagUsed ∧ child.sbag = some b) child.Has := by
  obtain ⟨s', hs', hsi⟩ := hp.sbag
  rw [hs] at hs'
  cases hs'
  obtain ⟨t, ht, hti⟩ := hc.sbag
  have hsc : ¬ child.Has s := fun hb => hap s hb (.inl hs)
  have hst : s ≠ t := by rintro rfl; exact hsc (.inl ht)
  obtain ⟨h₁, hh₁, ha⟩ := combineUsed_spec child.sbagUsed hw hsi.1 hti.1 hst
  have hd := deleteChild_spec ha.wf hsc
  have hany : (child.pbags.getD []).any Option.isSome = false := by
    rw [List.any_eq_false]
    intro o ho
    cases o with
    | none => simp
    | some b =>
      obtain ⟨r, hr⟩ := mem_pbags.1 ho
      rw [hn] at hr
      cases hr
  refine ⟨(child.clearPbagArray (child.setSbag none h₁).2).2, ?_,
    (ha.trans hd ?_ fun _ h => h.elim).mono (fun b hb => .inl ⟨hb.1, ?_⟩) ?_⟩
  · simp [leaveCilkFunction, mergeBagFromReturningChild, mergeCalled, hfr, hs, ht, hh₁, hany,
      exitFunction, reset, setSbag, clearPbagArray, setIterbag, Bags.delete, hi]
  · exact fun h => hsc (h.imp_right .inl)
  · rw [ht] at hb
    exact (Option.some.inj hb.2).symm
  · rintro b (⟨-, rfl⟩ | hb | hb)
    · exact .inl ht
    · exact .inl hb
    · exact .inr (.inl hb)

/-- `complete_sync`: the region's P-bag, if there is one, goes to the S-bag. -/
theorem completeSync_spec {c : CilkSan} {f : FrameData} {fs : List FrameData} {r s : Nat}
    (hfr : c.frames = f :: fs) (hw : c.bags.WF) (hf : f.Ok c.bags)
    (hr : r < (f.pbags.getD []).length) (hs : f.sbag = some s) :
    ∃ h' f', c.completeSync r = some { c with bags := h', frames := f' :: fs } ∧
      f' = { f.withPbag r none with sbagUsed := f.sbagUsed || (f.pbag r).isSome } ∧
      Absorbed c.bags h' s (fun b => f.pbag r = some b) (fun b => f.pbag r = some b) := by
  cases hf' : f.pbags with
  | none => simp [hf'] at hr
  | some l =>
    have hr' : r < l.length := by simpa [hf'] using hr
    have hpb : f.pbag r = l[r] := by simp [pbag, hf', hr']
    cases hl : l[r] with
    | none =>
      rw [hl] at hpb
      refine ⟨c.bags, f, ?_, ?_, (Absorbed.refl hw).mono (by simp [hpb]) (by simp)⟩
      · simp [completeSync, hfr, hf', hr', hl]
        cases c
        simp_all
      · have : l.set r none = l := by rw [← hl, List.set_getElem_self]
        simp only [withPbag, hf', Option.getD_some, this, hpb, Option.isSome_none, Bool.or_false]
        cases f
        simp_all
    | some p =>
      rw [hl] at hpb
      obtain ⟨s', hs', hsi⟩ := hf.sbag
      rw [hs] at hs'
      cases hs'
      have hpi := hf.pbag hpb
      have hsp : s ≠ p := by rintro rfl; exact absurd (hsi.type_eq hpi) (by simp)
      obtain ⟨h₁, hcomb, hc⟩ := Bags.combine_spec hw hsi.1 hpi.1 hsp
      have ha := Absorbed.of_combined hc hsp hpi.1
      have hd := Absorbed.of_delete (o := some p) ha.wf (t := s) (by simpa [eq_comm] using hsp)
      have hset := setPbag_eq (f := { f with sbagUsed := true }) (r := r) hr none h₁
      have hpb' : ({ f with sbagUsed := true } : FrameData).pbag r = some p := hpb
      rw [hpb'] at hset
      refine ⟨h₁.delete (some p), _, ?_, rfl,
        (ha.trans hd (by simpa [eq_comm] using hsp) fun _ h => h.elim).mono
        (by simp [hpb, eq_comm]) (by simp [hpb, eq_comm])⟩
      simp only [hs, hf'] at hset
      simp [completeSync, hfr, hf', hr', hl, hs, hcomb, hpb, hset, withPbag, setHead]

/-! ## New frames -/

/-- A frame as `start_new_function` leaves it. -/
structure New (f : FrameData) (s n : Nat) : Prop where
  sbag : f.sbag = some s
  unused : f.sbagUsed = false
  pbag : ∀ r, f.pbag r = none
  length : (f.pbags.getD []).length = n
  iterbag : f.iterbag = none

theorem New.ok {f : FrameData} {s n : Nat} {h : Bags} (hf : New f s n)
    (hs : h.Is s .sBag) : f.Ok h where
  sbag := ⟨s, hf.sbag, hs⟩
  pbag {r p} hp := by rw [hf.pbag] at hp; cases hp
  distinct := fun i j b hi _ => by rw [← pbag_iff, hf.pbag] at hi; cases hi
  iterbag {i} hi := by rw [hf.iterbag] at hi; cases hi

theorem New.has {f : FrameData} {s n b : Nat} (hf : New f s n) (hb : f.Has b) : b = s := by
  rcases hb with hb | ⟨r, hb⟩ | hb
  · rw [hf.sbag] at hb; exact (Option.some.inj hb).symm
  · rw [hf.pbag] at hb; cases hb
  · rw [hf.iterbag] at hb; cases hb

theorem createNewSBag_is {h : Bags} (hw : h.WF) (cs : CallStack) :
    (h.createNewSBag cs).2.Is (h.createNewSBag cs).1 .sBag := by
  obtain ⟨-, hb, -, hg, -, -⟩ := Bags.createNewSBag_spec hw cs
  exact ⟨hg, _, hb, rfl, fun _ => rfl⟩

theorem startNewFunction_spec {c : CilkSan} {parent : FrameData} {fs : List FrameData} (n : Nat)
    (hfr : c.frames = parent :: fs) (hw : c.bags.WF) :
    ∃ s h' child, c.startNewFunction n =
    some { c with bags := h', frames := child :: parent :: fs } ∧
      New child s n ∧ c.bags.bag s = none ∧ h'.Is s .sBag ∧
      ∀ t, Absorbed c.bags h' t (fun _ => False) (fun _ => False) := by
  obtain ⟨hn, -, -, -, -, hk⟩ := Bags.createNewSBag_spec hw c.callStack
  refine ⟨(c.bags.createNewSBag c.callStack).1, (c.bags.createNewSBag c.callStack).2,
    { sbag := some (c.bags.createNewSBag c.callStack).1, parentContin := childParentContin parent,
      pbags :=
        if n > 0 then some (List.replicate n none) else none }, ?_,
          ⟨rfl, rfl, fun r => ?_, ?_, rfl⟩, hn,
    createNewSBag_is hw _, fun t => .of_fresh hn hk⟩
  · by_cases h :
      n > 0 <;> simp [startNewFunction, hfr, setSbag, makePbagArray, clearPbagArray, Bags.delete, h]
  · by_cases h : n > 0
    · by_cases hr : r < n <;> simp [pbag, h, hr]
    · simp [pbag, h]
  · by_cases h : n > 0
    · simp [h]
    · simp [h]; omega

/-- Replacing the Iter-bag by a new one. -/
theorem createIterbag_spec {f : FrameData} {h : Bags} {s : Nat} (hw : h.WF) (hs : f.sbag = some s)
    (hsi : h.Is s .sBag) (hl : ∀ i, f.iterbag = some i → h.bag i ≠ none) :
    ∃ i h', f.createIterbag h = some ({ f with iterbag := some i, iterbagUsed := false }, h') ∧
      h.bag i = none ∧ h'.Is i .sBag ∧ (∃ x, h'.bag i = some x ∧ x.version = 0) ∧
      ∀ t, f.iterbag ≠ some t → Absorbed h h' t (fun _ => False) (f.iterbag = some ·) := by
  obtain ⟨-, x, hx, -, hds⟩ := hsi
  obtain ⟨ds, hds⟩ := Option.isSome_iff_exists.1 (hds rfl)
  obtain ⟨hn, hb, -, -, -, hk⟩ := Bags.createNewSBag_spec hw (h.sets.node ds).data
  have hi := createNewSBag_is hw (h.sets.node ds).data
  generalize hc : h.createNewSBag (h.sets.node ds).data = c at hn hb hk hi
  obtain ⟨i, h₁⟩ := c
  simp only at hn hb hk hi
  have ha : ∀ t, Absorbed h h₁ t (fun _ => False) (fun _ => False) := fun t => .of_fresh hn hk
  have hd : ∀ t, f.iterbag ≠ some t →
    Absorbed h₁ (h₁.delete f.iterbag) t (fun _ => False) (f.iterbag = some ·) :=
    fun t ht => .of_delete (ha t).wf ht
  refine ⟨i, h₁.delete f.iterbag, by simp [createIterbag, hs, hx, hds, hc, setIterbag], hn, ?_⟩
  have hfi : f.iterbag ≠ some i := fun hfi => hl i hfi hn
  refine ⟨(hd i hfi).is hfi hi, ?_, fun t ht => ((ha t).trans (hd t ht) ht fun _ h => h.elim).mono
    (fun _ h => h.elim) (by simp)⟩
  obtain ⟨y, hy, hv⟩ := (hd i hfi).version hfi hb
  exact ⟨y, hy, hv⟩

/-- A used S-bag is moved to the P-bag and replaced. -/
theorem retireSbag_spec {f : FrameData} {h : Bags} {s p : Nat} (cs : CallStack) (hw : h.WF)
    (hs : f.sbag = some s) (hsi : h.Is s .sBag) (hpi : h.Is p .pBag) :
    ∃ s' h', retireSbag f p cs h = some ({ f with sbag := some s', sbagUsed := false }, h') ∧
      (s' = s ∧ f.sbagUsed = false ∨ h.bag s' = none) ∧ h'.Is s' .sBag ∧
      Absorbed h h' p (fun b => f.sbagUsed ∧ b = s) (fun b => f.sbagUsed ∧ b = s) := by
  cases hu : f.sbagUsed with
  | false =>
    refine ⟨s, h, ?_, .inl ⟨rfl, rfl⟩, hsi, (Absorbed.refl hw).mono (by simp) (by simp)⟩
    simp only [retireSbag, hu, Bool.false_eq_true, if_false]
    cases f
    simp_all
  | true =>
    have hps : p ≠ s := by rintro rfl; exact absurd (hsi.type_eq hpi) (by simp)
    obtain ⟨h₁, hcomb, hc⟩ := Bags.combine_spec hw hpi.1 hsi.1 hps
    have ha := Absorbed.of_combined hc hps hsi.1
    obtain ⟨hn, hb, -, -, -, hk⟩ := Bags.createNewSBag_spec ha.wf cs
    have hi := createNewSBag_is ha.wf cs
    generalize hcr : h₁.createNewSBag cs = c at hn hb hk hi
    obtain ⟨s', h₂⟩ := c
    simp only at hn hb hk hi
    have ha₂ : ∀ {t}, Absorbed h₁ h₂ t (fun _ => False) (fun _ => False) := .of_fresh hn hk
    have hs' : h.bag s' = none := by
      cases hx : h.bag s' with
      | none => rfl
      | some x =>
        by_cases hsp : s' = p
        · subst hsp
          obtain ⟨ds, hp', -⟩ := ha.self hps hx
          rw [hn] at hp'
          cases hp'
        · have := hc.bag hsp
          rw [hn, hx] at this
          cases this
    have hss : s' ≠ s := by rintro rfl; exact hsi.live hs'
    have hd : ∀ {t}, t ≠ s →
        Absorbed h₂ (h₂.delete (some s)) t (fun _ => False) (some s = some ·) := fun ht =>
      .of_delete (ha₂ (t := s)).wf (by simpa [eq_comm] using ht)
    refine ⟨s', h₂.delete (some s), by simp [retireSbag, hu, hs, hcomb, hcr, setSbag], .inr hs',
      (hd hss).is (by simpa [eq_comm] using hss) hi,
      ((ha.trans ha₂ id fun _ h => h.elim).trans (hd hps)
        (by simpa [eq_comm] using hps) fun _ h => h.elim).mono (by simp) (by simp [eq_comm])⟩

/-- A used Iter-bag whose version has wrapped is moved to the P-bag and replaced. -/
theorem retireIterbag_spec {f : FrameData} {h : Bags} {s i p : Nat} (ok : Bool) (hw : h.WF)
    (hs : f.sbag = some s)
    (hsi : h.Is s .sBag) (hi : f.iterbag = some i) (his : h.Is i .sBag) (hne : s ≠ i)
    (hpi : h.Is p .pBag) :
    ∃ i' h', retireIterbag f p ok h =
    some ({ f with iterbag := some i', iterbagUsed := f.iterbagUsed && ok }, h') ∧
      (i' = i ∧ ¬ (f.iterbagUsed ∧ ok = false) ∨
        h.bag i' = none ∧ f.iterbagUsed ∧ ok = false ∧ ∃ x, h'.bag i' = some x ∧ x.version = 0) ∧
      h'.Is i' .sBag ∧
      Absorbed h h' p (fun b => (f.iterbagUsed ∧ ok = false) ∧ b = i)
      (fun b => (f.iterbagUsed ∧ ok = false) ∧ b = i) := by
  by_cases hu : f.iterbagUsed = true ∧ ok = false
  · obtain ⟨hu, rfl⟩ := hu
    have hpi' : p ≠ i := by rintro rfl; exact absurd (his.type_eq hpi) (by simp)
    obtain ⟨h₁, hcomb, hc⟩ := Bags.combine_spec hw hpi.1 his.1 hpi'
    have ha := Absorbed.of_combined hc hpi' his.1
    have hlive : h₁.bag i ≠ none := by rw [hc.bag (Ne.symm hpi')]; exact his.live
    obtain ⟨i', h₂, hcr, hn, hi', hv, ha₂⟩ := createIterbag_spec ha.wf hs (ha.is hne hsi)
      (fun j hj => by rw [hi] at hj; cases hj; exact hlive)
    have hn' : h.bag i' = none := by
      cases hx : h.bag i' with
      | none => rfl
      | some x =>
        by_cases hip : i' = p
        · subst hip
          obtain ⟨ds, hp', -⟩ := ha.self hpi' hx
          rw [hn] at hp'
          cases hp'
        · have := hc.bag hip
          rw [hn, hx] at this
          cases this
    refine ⟨i', h₂, by simp [retireIterbag, hu, hi, hcomb, hcr], .inr ⟨hn', hu, rfl, hv⟩, hi',
      (ha.trans (ha₂ p (by rw [hi]; simpa [eq_comm] using hpi')) (by simpa [hi, eq_comm] using hpi')
        fun _ h => h.elim).mono (by simp) fun b hb => ⟨⟨hu, rfl⟩, ?_⟩⟩
    rcases hb with rfl | hb
    · rfl
    · rw [hi] at hb
      exact (Option.some.inj hb).symm
  · refine ⟨i, h, ?_, .inl ⟨rfl, hu⟩, his,
      (Absorbed.refl hw).mono (fun _ h => hu h.1) fun _ h => h.elim⟩
    have hb : (!ok && f.iterbagUsed) = false := by
      cases ok <;> cases hfu : f.iterbagUsed <;> simp_all
    have hb' : (f.iterbagUsed && ok) = f.iterbagUsed := by
      cases ok <;> cases hfu : f.iterbagUsed <;> simp_all
    simp only [retireIterbag, hb, Bool.false_eq_true, if_false, hb', ← hi]

/-- What the end of an iteration does: the loop frame's S-bag, and its Iter-bag
when the version wraps, go to the P-bag of region 0 if they were used. -/
structure IterationEnd (h h' : Bags) (f f' : FrameData) (s i v p : Nat) : Prop where
  wf : h'.WF
  frameData : f'.frameData = f.frameData
  ok : f'.Ok h'
  unused : f'.sbagUsed = false
  pbag : ∀ r, f'.pbag r = if r = 0 then some p else f.pbag r
  length : (f'.pbags.getD []).length = (f.pbags.getD []).length
  fresh : f.pbag 0 = some p ∨ f.pbag 0 = none
  has : ∀ {b}, f'.Has b → f.Has b ∨ h.bag b = none
  iterbag : ∃ i' x, f'.iterbag = some i' ∧ h'.bag i' = some x ∧ x.version = (v + 1) % versionEnd ∧
    (i' = i ∧ f'.iterbagUsed = f.iterbagUsed ∧ ((v + 1) % versionEnd = 0 → f.iterbagUsed = false) ∨
      f'.iterbagUsed = false ∧ (v + 1) % versionEnd = 0)
  is : ∀ {b ty}, b ≠ s → b ≠ i → h.Is b ty → h'.Is b ty
  version : ∀ {b x}, b ≠ s → b ≠ i → h.bag b = some x →
    ∃ x', h'.bag b = some x' ∧ x'.version = x.version
  kept : ∀ {d b}, b ≠ s → b ≠ i → h.Owned d b → h'.Owned d b
  sMoved : ∀ {d}, f.sbagUsed → h.Owned d s → h'.Owned d p
  iMoved : ∀ {d}, f.iterbagUsed → (v + 1) % versionEnd = 0 → h.Owned d i → h'.Owned d p
  iKept : ∀ {d}, (v + 1) % versionEnd ≠ 0 → h.Owned d i → h'.Owned d i

theorem doLoopIterationEnd_spec {c : CilkSan} {f : FrameData} {fs : List FrameData}
    {s i : Nat} {x : SPBag}
    (hfr : c.frames = f :: fs) (hw : c.bags.WF) (hf : f.Ok c.bags)
    (hr : 0 < (f.pbags.getD []).length)
    (hs : f.sbag = some s) (hi : f.iterbag = some i) (hx : c.bags.bag i = some x) :
    ∃ h' f' p, c.doLoopIterationEnd = some { c with bags := h', frames := f' :: fs } ∧
      IterationEnd c.bags h' f f' s i x.version p := by
  obtain ⟨s', hs', hsi⟩ := hf.sbag
  rw [hs] at hs'
  cases hs'
  obtain ⟨his, hsne⟩ := hf.iterbag hi
  have hne : s ≠ i := by rintro rfl; exact hsne hs
  -- The P-bag of region 0.
  have hl := lazyPbag_spec (f := f.exitLoopContinuation) (r := 0) hw hr fun p hp => hf.pbag hp
  obtain ⟨p, h₁, hl, hpp, hpi, ha₁⟩ := hl
  have hps : p ≠ s := by rintro rfl; exact absurd ((ha₁.is id hsi).type_eq hpi) (by simp)
  have hpi' : p ≠ i := by rintro rfl; exact absurd ((ha₁.is id his).type_eq hpi) (by simp)
  have hpb₁ : ∀ r, (f.exitLoopContinuation.withPbag 0 (some p)).pbag r = if r =
    0 then some p else f.pbag r := pbag_withPbag hr _
  have hlen₁ : ((f.exitLoopContinuation.withPbag 0 (some p)).pbags.getD []).length =
    (f.pbags.getD []).length := length_withPbag ..
  have hfd₁ : (f.exitLoopContinuation.withPbag 0 (some p)).frameData = f.frameData := rfl
  have hsu₁ : (f.exitLoopContinuation.withPbag 0 (some p)).sbagUsed = f.sbagUsed := rfl
  have hiu₁ : (f.exitLoopContinuation.withPbag 0 (some p)).iterbagUsed = f.iterbagUsed := rfl
  have hs₁ : (f.exitLoopContinuation.withPbag 0 (some p)).sbag = some s := hs
  have hi₁ : (f.exitLoopContinuation.withPbag 0 (some p)).iterbag = some i := hi
  generalize f.exitLoopContinuation.withPbag 0 (some p) = f₁ at hl hpb₁ hlen₁ hfd₁ hsu₁ hiu₁ hs₁ hi₁
  -- The S-bag.
  obtain ⟨s', h₂, hsb, hss, hsi₂, ha₂⟩ := retireSbag_spec c.callStack ha₁.wf hs₁ (ha₁.is id hsi) hpi
  rw [hsu₁] at hss ha₂
  have hisn : ¬ (f.sbagUsed = true ∧ i = s) := fun h => hne h.2.symm
  have hpsn : ¬ (f.sbagUsed = true ∧ p = s) := fun h => hps h.2
  have his₂ := ha₂.is hisn (ha₁.is id his)
  have hpi₂ := ha₂.is hpsn hpi
  obtain ⟨x₁, hx₁, hv₁⟩ := ha₁.version id hx
  obtain ⟨x₂, hx₂, hv₂⟩ := ha₂.version hisn hx₁
  have hpb₂ : ∀ r, ({ f₁ with sbag := some s', sbagUsed := false } : FrameData).pbag r =
      f₁.pbag r := fun _ => rfl
  have hlen₂ : (({ f₁ with sbag := some s', sbagUsed := false } : FrameData).pbags.getD []).length =
    (f₁.pbags.getD []).length := rfl
  have hfd₂ : ({ f₁ with sbag := some s', sbagUsed := false } : FrameData).frameData =
      f₁.frameData := rfl
  have hsu₂ : ({ f₁ with sbag := some s', sbagUsed := false } : FrameData).sbagUsed = false := rfl
  have hiu₂ : ({ f₁ with sbag := some s', sbagUsed := false } : FrameData).iterbagUsed =
      f₁.iterbagUsed := rfl
  have hs₂ : ({ f₁ with sbag := some s', sbagUsed := false } : FrameData).sbag = some s' := rfl
  have hi₂ : ({ f₁ with sbag := some s', sbagUsed := false } : FrameData).iterbag = some i := hi₁
  generalize ({ f₁ with sbag := some s', sbagUsed := false } : FrameData) =
    f₂ at hsb hpb₂ hlen₂ hfd₂ hsu₂ hiu₂ hs₂ hi₂
  rw [hiu₁] at hiu₂
  -- The version.
  obtain ⟨h₃, hinc, -, hx₃, hg₃, ho₃, hk₃⟩ := Bags.incVersion_spec ha₂.wf hx₂ his₂.1
  rw [hv₂, hv₁] at hinc hx₃
  have his₃ : h₃.Is i .sBag := by
    obtain ⟨-, y, hy, hty, hds⟩ := his₂
    rw [hx₂] at hy
    cases hy
    exact ⟨hg₃, _, hx₃, hty, hds⟩
  have hsi' : s' ≠ i := by
    rcases hss with ⟨rfl, -⟩ | hss
    · exact hne
    · rintro rfl
      rw [hx₁] at hss
      cases hss
  have hsi₃ := hk₃.is hsi' hsi₂
  have hpi₃ := hk₃.is hpi' hpi₂
  -- The Iter-bag.
  have hok : decide ((x.version + 1) % versionEnd ≠ 0) = false ↔
      (x.version + 1) % versionEnd = 0 := by simp
  generalize decide ((x.version + 1) % versionEnd ≠ 0) = ok at hinc hok
  obtain ⟨i', h₄, hib, hii, hi₄, ha₄⟩ := retireIterbag_spec ok hk₃.wf hs₂ hsi₃ hi₂ his₃ hsi' hpi₃
  rw [hiu₂] at hii hib ha₄
  have hsn₄ : ¬ ((f.iterbagUsed = true ∧ ok = false) ∧ s' = i) := fun h => hsi' h.2
  have hpn₄ : ¬ ((f.iterbagUsed = true ∧ ok = false) ∧ p = i) := fun h => hpi' h.2
  have hIs : ∀ {b ty}, b ≠ s → b ≠ i → c.bags.Is b ty → h₄.Is b ty := fun hbs hbi hb =>
    ha₄.is (fun h => hbi h.2) (hk₃.is hbi (ha₂.is (fun h => hbs h.2) (ha₁.is id hb)))
  have hv₃ : ∀ {b y}, b ≠ s → b ≠ i → c.bags.bag b = some y →
    ∃ y', h₃.bag b = some y' ∧ y'.version = y.version := fun hbs hbi hy => by
      obtain ⟨y₁, hy₁, he₁⟩ := ha₁.version id hy
      obtain ⟨y₂, hy₂, he₂⟩ := ha₂.version (fun h => hbs h.2) hy₁
      exact ⟨y₂, by rw [hk₃.bag hbi]; exact hy₂, he₂.trans he₁⟩
  have hKept : ∀ {d b}, b ≠ s → b ≠ i → c.bags.Owned d b → h₄.Owned d b := fun hbs hbi ho =>
    ha₄.kept (fun h => hbi h.2) (hk₃.owned hbi (ha₂.kept (fun h => hbs h.2) (ha₁.kept id ho)))
  have hpb : ∀ r, f₂.pbag r = if r = 0 then some p else f.pbag r := fun r => by rw [hpb₂, hpb₁]
  have hpp' : ∀ {r q}, f.pbag r = some q → q ≠ s ∧ q ≠ i := fun hq => by
    have hqi := hf.pbag hq
    exact ⟨by rintro rfl; exact absurd (hsi.type_eq hqi) (by simp),
      by rintro rfl; exact absurd (his.type_eq hqi) (by simp)⟩
  have hi₃ : ∀ {d}, c.bags.Owned d i → h₃.Owned d i :=
    fun ho => ho₃ (ha₂.kept hisn (ha₁.kept id ho))
  -- What is not there in a later heap was there in the first only as the S-bag.
  have hn₁ : ∀ {b}, h₁.bag b = none → c.bags.bag b = none := fun {b} hb => by
    cases hy : c.bags.bag b with
    | none => rfl
    | some y =>
      obtain ⟨y', hy', -⟩ := ha₁.version id hy
      rw [hb] at hy'
      cases hy'
  have hi₃ : ∀ {d}, c.bags.Owned d i → h₃.Owned d i :=
    fun ho => ho₃ (ha₂.kept hisn (ha₁.kept id ho))
  have hp₀ : f.pbag 0 = some p ∨ ∀ r, f.pbag r ≠ some p := by
    rcases hpp with hpp | hpp
    · exact .inl hpp
    · exact .inr fun r hr => (hf.pbag hr).live hpp.2
  refine ⟨h₄, { f₂ with iterbag := some i', iterbagUsed := f.iterbagUsed && ok }, p, ?_, {
    wf := ha₄.wf
    frameData := hfd₂.trans hfd₁
    ok := ⟨⟨s', hs₂, ha₄.is hsn₄ hsi₃⟩, fun {r q} hq => ?_, distinct_of_pbag hf.distinct hpb hp₀,
      fun {j} hj => ?_⟩
    unused := hsu₂
    pbag := hpb
    length := hlen₂.trans hlen₁
    fresh := hpp.imp_right (·.1)
    has := fun {b} hb => ?_
    iterbag := ?_
    is := hIs
    version := fun hbs hbi hy => ?_
    kept := hKept
    sMoved := fun hu ho => ha₄.kept hpn₄ (hk₃.owned hpi' (ha₂.moved ⟨hu, rfl⟩ (ha₁.kept id ho)))
    iMoved := fun hu hwr ho => ha₄.moved ⟨⟨hu, hok.2 hwr⟩, rfl⟩ (hi₃ ho)
    iKept := fun hwr ho => ha₄.kept (fun h => hwr (hok.1 h.1.2)) (hi₃ ho) }⟩
  · simp only [doLoopIterationEnd, hfr, List.head?_cons, Option.bind_eq_bind,
      Option.bind_some, hl, hsb, FrameData.incVersion, hi₂, hinc, hib, setHead, List.tail_cons]
    rfl
  · replace hq : f₂.pbag r = some q := hq
    rw [hpb] at hq
    split at hq
    · cases hq; exact ha₄.is hpn₄ hpi₃
    · exact hIs (hpp' hq).1 (hpp' hq).2 (hf.pbag hq)
  · simp only [Option.some.injEq] at hj
    subst hj
    refine ⟨hi₄, ?_⟩
    rw [hs₂]
    rintro ⟨⟩
    rcases hii with ⟨rfl, -⟩ | ⟨hn, -⟩
    · exact hsi' rfl
    · exact hsi₃.live hn
  · rcases hb with hb | ⟨r, hb⟩ | hb
    · rw [show _ = some s' from hs₂] at hb
      cases hb
      rcases hss with ⟨rfl, -⟩ | hss
      · exact .inl (.inl hs)
      · exact .inr (hn₁ hss)
    · replace hb : f₂.pbag r = some b := hb
      rw [hpb] at hb
      split at hb
      · cases hb
        rcases hpp with hpp | hpp
        · exact .inl (.inr (.inl ⟨0, hpp⟩))
        · exact .inr hpp.2
      · exact .inl (.inr (.inl ⟨r, hb⟩))
    · simp only [Option.some.injEq] at hb
      subst hb
      rcases hii with ⟨rfl, -⟩ | ⟨hn, -⟩
      · exact .inl (.inr (.inr hi))
      · by_cases hbs : i' = s
        · subst hbs; exact .inl (.inl hs)
        · by_cases hbi : i' = i
          · subst hbi; exact .inl (.inr (.inr hi))
          · cases hy : c.bags.bag i' with
            | none => exact .inr rfl
            | some y =>
              obtain ⟨y', hy', -⟩ := hv₃ hbs hbi hy
              rw [hn] at hy'
              cases hy'
  · rcases hii with ⟨rfl, hu⟩ | ⟨-, hu, hok', y, hy, hyv⟩
    · obtain ⟨y, hy, hyv⟩ := ha₄.version (fun h => hu h.1) hx₃
      refine ⟨i', y, rfl, hy, hyv, .inl ⟨rfl, ?_, fun hw => ?_⟩⟩
      · cases ok <;> cases hfu : f.iterbagUsed <;> simp_all
      · cases hfu : f.iterbagUsed with
        | false => rfl
        | true => exact absurd ⟨hfu, hok.2 hw⟩ hu
    · refine ⟨i', y, rfl, hy, hyv.trans (hok.1 hok').symm, .inr ⟨by simp [hok'], hok.1 hok'⟩⟩
  · obtain ⟨y₃, hy₃, he₃⟩ := hv₃ hbs hbi hy
    obtain ⟨y₄, hy₄, he₄⟩ := ha₄.version (fun h => hbi h.2) hy₃
    exact ⟨y₄, hy₄, he₄.trans he₃⟩

/-- The end of a loop leaves its P-bags, and its Iter-bag if it was used, to the
parent's P-bag. -/
theorem doLoopEnd_spec {c : CilkSan} {f parent : FrameData} {fs : List FrameData} {i r : Nat}
    (hfr : c.frames = f :: parent :: fs) (hw : c.bags.WF) (hf : f.Ok c.bags)
    (h₀ : 0 < (f.pbags.getD []).length)
    (hi : f.iterbag = some i) (hu : f.sbagUsed = false) (hd : f.frameData.isDetacher = true)
    (hp : parent.Ok c.bags) (hap : f.Apart parent) (hr : r < (parent.pbags.getD []).length) :
    ∃ q h', c.doLoopEnd r = some { c with bags := h', frames := parent.withPbag r (some q) :: fs } ∧
      (parent.pbag r = some q ∨ parent.pbag r = none ∧ (c.bags.bag q ≠ none → f.Has q)) ∧
      h'.Is q .pBag ∧
      Absorbed c.bags h' q (fun b => f.iterbagUsed ∧ b = i ∨ ∃ r, f.pbag r = some b) f.Has := by
  obtain ⟨p, h₁, hl, hpp, hpi, ha₁⟩ := lazyPbag_spec hw h₀ fun p hp' => hf.pbag hp'
  obtain ⟨his, hsi⟩ := hf.iterbag hi
  have hpi' : p ≠ i := by rintro rfl; exact absurd ((ha₁.is id his).type_eq hpi) (by simp)
  obtain ⟨h₂, hh₂, ha₂⟩ := combineUsed_spec f.iterbagUsed ha₁.wf hpi.1 (ha₁.is id his).1 hpi'
  have ha₃ := Absorbed.of_delete (o := some i) (t := p) ha₂.wf (by simpa [eq_comm] using hpi')
  have ha : Absorbed c.bags (h₂.delete (some i)) p (fun b => f.iterbagUsed ∧ b = i) (· = i) :=
    ((ha₁.trans ha₂ (fun h => hpi' h.2) fun _ _ h => h).trans ha₃ (by simpa [eq_comm] using hpi')
      fun _ h => h.elim).mono (fun b hb => .inl (.inr hb)) fun b hb => by
        rcases hb with (hb | hb) | hb
        · exact hb.elim
        · exact hb.2
        · exact (Option.some.inj hb).symm
  have hpb : ∀ r, (f.withPbag 0 (some p)).pbag r = if r = 0 then some p else f.pbag r :=
    pbag_withPbag h₀ _
  have hp₀ : f.pbag 0 = some p ∨ ∀ r, f.pbag r ≠ some p := by
    rcases hpp with hpp | hpp
    · exact .inl hpp
    · exact .inr fun r hr => (hf.pbag hr).live hpp.2
  have hni : ∀ {r b}, f.pbag r = some b → b ≠ i := fun hb => by
    rintro rfl
    exact absurd (his.type_eq (hf.pbag hb)) (by simp)
  -- The frame the loop returns from.
  let f' : FrameData := { f.withPbag 0 (some p) with
    iterbag := none
    iterbagUsed := false }
  have hok : f'.Ok (h₂.delete (some i)) := by
    refine ⟨?_, fun {r q} hq => ?_, distinct_of_pbag hf.distinct hpb hp₀, fun hj => by cases hj⟩
    · obtain ⟨s, hs, hsi'⟩ := hf.sbag
      exact ⟨s, hs, ha.is (by rintro rfl; exact hsi hs) hsi'⟩
    · replace hq : (f.withPbag 0 (some p)).pbag r = some q := hq
      rw [hpb] at hq
      split at hq
      · cases hq
        exact ha₃.is (by simpa [eq_comm] using hpi') (ha₂.is (fun h => hpi' h.2) hpi)
      · exact ha.is (hni hq) (hf.pbag hq)
  have hhas : ∀ {b}, f'.Has b → f.Has b ∨ b = p ∧ c.bags.bag p = none := fun {b} hb => by
    rcases hb with hb | ⟨r, hb⟩ | hb
    · exact .inl (.inl hb)
    · replace hb : (f.withPbag 0 (some p)).pbag r = some b := hb
      rw [hpb] at hb
      split at hb
      · cases hb
        rcases hpp with hpp | hpp
        · exact .inl (.inr (.inl ⟨0, hpp⟩))
        · exact .inr ⟨rfl, hpp.2⟩
      · exact .inl (.inr (.inl ⟨r, hb⟩))
    · cases hb
  have hap' : f'.Apart parent := fun b hb hpb' => by
    rcases hhas hb with hb | ⟨rfl, hn⟩
    · exact hap b hb hpb'
    · exact hp.live hpb' hn
  have hgi : ∀ b, parent.Has b → ¬ b = i := fun b hb => by
    rintro rfl
    exact hap b (.inr (.inr hi)) hb
  obtain ⟨q, h', hret, hqq, hqi, har⟩ := returnFromDetach_spec
    (c := { c with bags := h₂.delete (some i), frames := f' :: parent :: fs }) rfl ha.wf hok rfl
    (hp.absorbed ha hgi) hap' hr
  simp only at hret hqq har
  have hpf : f'.pbag 0 = some p := by
    show (f.withPbag 0 (some p)).pbag 0 = some p
    simp [hpb]
  have hqp : q ≠ p := by
    rintro rfl
    rcases hqq with hqq | hqq
    · exact hap' q (.inr (.inl ⟨0, hpf⟩)) (.inr (.inl ⟨r, hqq⟩))
    · exact (hok.pbag hpf).live hqq.2
  refine ⟨q, h', ?_, ?_, hqi,
    ((ha.trans_into har (.inr ⟨0, hpf⟩) (.inr (.inl ⟨0, hpf⟩)) hqp ?_).mono
    (fun b hb => ?_) fun _ h => h).mono_live fun b hb hlive => ?_⟩
  · simp only [doLoopEnd, hfr, List.head?_cons, Option.bind_eq_bind, Option.bind_some, hl,
      show (f.withPbag 0 (some p)).iterbagUsed = f.iterbagUsed from rfl,
      show (f.withPbag 0 (some p)).iterbag = some i from hi, hh₂, setIterbag, setHead,
        List.tail_cons, doLeave]
    rw [show (f.withPbag 0 (some p)).frameData = f.frameData from rfl, hd]
    exact hret
  · rcases hqq with hqq | hqq
    · exact .inl hqq
    · refine .inr ⟨hqq.1, fun hq => ?_⟩
      by_cases hqi' : q = i
      · subst hqi'; exact .inr (.inr hi)
      · cases hx : c.bags.bag q with
        | none => exact absurd hx hq
        | some x =>
          obtain ⟨x', hx', -⟩ := ha.version hqi' hx
          rw [hqq.2] at hx'
          cases hx'
  · rintro b (⟨hb, -⟩ | ⟨r, hb⟩)
    · rw [show f'.sbagUsed = false from hu] at hb
      cases hb
    · replace hb : (f.withPbag 0 (some p)).pbag r = some b := hb
      rw [hpb] at hb
      split at hb
      · cases hb; exact hpi'
      · exact hni hb
  · rcases hb with hb | ⟨r, hb⟩
    · exact .inl hb
    · refine .inr (.inr ⟨r, ?_⟩)
      show (f.withPbag 0 (some p)).pbag r = some b
      rw [hpb]
      split
      · next hr =>
        subst hr
        rcases hpp with hpp | hpp
        · rw [← hpp, hb]
        · rw [hpp.1] at hb; cases hb
      · exact hb
  · rcases hb with rfl | hb
    · exact .inr (.inr hi)
    · rcases hhas hb with hb | ⟨rfl, hn⟩
      · exact hb
      · exact absurd hn hlive

end CilkSan

/-! ## The parallelism test -/

theorem previousAccessInParallel_snd (m : MemoryAccess) (f : FrameData) (h : Bags) :
    (CilkSan.previousAccessInParallel m f h).2 = (h.getSbagOrNull m.func).2 := by
  simp only [CilkSan.previousAccessInParallel]
  split <;> rfl

end Cilksan
