/-
Which bags are live: what each operation on a frame allocates and deletes.
-/
import CilkTools.Cilksan.FrameSpec

namespace Cilksan

/-! ## Live bags -/

namespace Bags

def Live (h : Bags) (b : Nat) : Prop := h.bag b ≠ none

theorem live_setBag {h : Bags} {b c : Nat} {x : SPBag} : (h.setBag b x).Live c ↔
    c = b ∨ h.Live c := by
  by_cases hc : c = b
  · subst hc; simp [Live, setBag]
  · simp [Live, setBag, hc]

theorem live_combine {h h' : Bags} {b that c : Nat} (hc : h.combine b that = some h') :
    h'.Live c ↔ h.Live c := by
  simp only [combine, Option.bind_eq_bind, Option.bind_eq_some_iff] at hc
  obtain ⟨x, hx, y, -, hc⟩ := hc
  cases hc
  rw [live_setBag]
  refine ⟨fun h => h.elim (fun he => ?_) id, .inr⟩
  rw [he, Live, hx]
  simp

theorem live_alloc {h : Bags} {t : BagType} {c : Nat} : (h.alloc t).2.Live c ↔
    c = (h.alloc t).1 ∨ h.Live c := by
  simp only [alloc]
  split <;> exact live_setBag

theorem live_createNewSBag {h : Bags} {cs : CallStack} {c : Nat} :
    (h.createNewSBag cs).2.Live c ↔ c = (h.createNewSBag cs).1 ∨ h.Live c := by
  simp only [createNewSBag]
  rw [live_setBag, show ∀ s, ({ (h.alloc .sBag).2 with sets := s } : Bags).Live c ↔
    (h.alloc .sBag).2.Live c from fun _ => Iff.rfl, live_alloc, ← or_assoc, or_self]

theorem live_delete {h : Bags} {o : Option Nat} {c : Nat} : (h.delete o).Live c ↔
    h.Live c ∧ o ≠ some c := by
  cases o with
  | none => simp [delete]
  | some b =>
    simp only [delete, deleteBag, Live]
    split
    · next hb =>
      refine ⟨fun hc => ⟨hc, ?_⟩, And.left⟩
      intro he
      cases he
      exact hc hb
    · by_cases hc : c = b
      · subst hc; simp
      · simp [hc, Ne.symm hc]

theorem live_foldl_delete {l : List (Option Nat)} {c : Nat} :
    ∀ {h : Bags}, (l.foldl delete h).Live c ↔ h.Live c ∧ some c ∉ l := by
  induction l with
  | nil => simp
  | cons o l ih =>
    intro h
    rw [List.foldl_cons, ih, live_delete, List.mem_cons, not_or, and_assoc, ne_comm]

theorem live_incVersion {h h' : Bags} {b c : Nat} {ok : Bool}
    (hi : h.incVersion b = some (ok, h')) : h'.Live c ↔ h.Live c := by
  simp only [incVersion, Option.bind_eq_bind, Option.bind_eq_some_iff] at hi
  obtain ⟨x, hx, hi⟩ := hi
  cases hi
  rw [live_setBag]
  refine ⟨fun h => h.elim (fun he => ?_) id, .inr⟩
  rw [he, Live, hx]
  simp

end Bags

open Bags FrameData CilkSan

theorem live_combineUsed {used : Bool} {h h' : Bags} {o o' : Option Nat} {c : Nat}
    (hc : combineUsed used h o o' = some h') : h'.Live c ↔ h.Live c := by
  cases used with
  | false =>
    cases hc
    rfl
  | true =>
    simp only [combineUsed, if_true, Option.bind_eq_bind, Option.bind_eq_some_iff] at hc
    obtain ⟨_, -, _, -, hc⟩ := hc
    exact live_combine hc

theorem live_combineAll {b c : Nat} {l : List (Option Nat)} :
    ∀ {h h' : Bags}, combineAll h b l = some h' → (h'.Live c ↔ h.Live c) := by
  induction l with
  | nil =>
    intro h h' hc
    cases hc
    rfl
  | cons o l ih =>
    intro h h' hc
    simp only [combineAll, List.foldlM_cons, Option.bind_eq_bind, Option.bind_eq_some_iff] at hc
    obtain ⟨h₁, h₁c, hc⟩ := hc
    rw [ih hc]
    cases o with
    | none =>
      cases h₁c
      rfl
    | some p => exact live_combine h₁c

/-- From `h` to `h'`, the frame `f` becomes `f'`: what is live is the new
frame's, or was live and not the old one's. -/
def Settled (h : Bags) (f : FrameData) (h' : Bags) (f' : FrameData) : Prop :=
  ∀ b, h'.Live b → f'.Has b ∨ h.Live b ∧ ¬ f.Has b

namespace Settled

variable {h h' h'' : Bags} {f f' f'' : FrameData}

theorem of_has (hl : ∀ b, h'.Live b → f'.Has b ∨ h.Live b)
    (hf : ∀ b, h'.Live b → f.Has b → f'.Has b) : Settled h f h' f' := by
  intro b hb
  by_cases hfb : f.Has b
  · exact .inl (hf b hb hfb)
  · exact (hl b hb).imp_right fun hlive => ⟨hlive, hfb⟩

theorem trans (h₁ : Settled h f h' f') (h₂ : Settled h' f' h'' f'') : Settled h f h'' f'' := by
  intro b hb
  rcases h₂ b hb with hb | ⟨hb, hn⟩
  · exact .inl hb
  · exact .inr ((h₁ b hb).resolve_left hn)

/-- Nothing is allocated or deleted. -/
theorem of_live (hl : ∀ b, h'.Live b → h.Live b) : Settled h f h' f :=
  of_has (fun b hb => .inr (hl b hb)) fun _ _ hf => hf

theorem lazyPbag {r p : Nat} (hr : r < (f.pbags.getD []).length)
    (hl : f.lazyPbag r h = some (p, f', h')) : Settled h f h' f' ∧ f' = f.withPbag r (some p) := by
  obtain ⟨l, hpb⟩ : ∃ l, f.pbags = some l := by
    cases hpb : f.pbags with
    | none => simp [hpb] at hr
    | some l => exact ⟨l, rfl⟩
  have hrl : r < l.length := by simpa [hpb] using hr
  simp only [FrameData.lazyPbag, hpb, List.getElem?_eq_getElem hrl, Option.bind_eq_bind,
    Option.bind_some] at hl
  split at hl
  · next q hq =>
    cases hl
    refine ⟨of_live fun _ hb => hb, ?_⟩
    have hset : l.set r (some p) = l := by rw [← hq, List.set_getElem_self]
    cases f
    simp_all [withPbag]
  · next hq =>
    have hn : f.pbag r = none := by simp [FrameData.pbag, hpb, hrl, hq]
    simp only [setPbag_eq hr, hn, Option.bind_some, Option.pure_def, Option.some.injEq,
      Prod.mk.injEq] at hl
    obtain ⟨rfl, rfl, rfl⟩ := hl
    refine ⟨of_has (fun b hb => ?_) fun b _ hb => ?_, rfl⟩
    · simp only [Bags.delete, createNewPBag, live_alloc] at hb
      refine hb.imp_left fun he => .inr (.inl ⟨r, ?_⟩)
      rw [pbag_withPbag hr, if_pos rfl, he]
      rfl
    · rcases hb with hb | ⟨r', hb⟩ | hb
      · exact .inl hb
      · refine .inr (.inl ⟨r', ?_⟩)
        have hne : r' ≠ r := by rintro rfl; rw [hn] at hb; cases hb
        rw [pbag_withPbag hr, if_neg hne]
        exact hb
      · exact .inr (.inr hb)

theorem retireSbag {p : Nat} {cs : CallStack} (hr : CilkSan.retireSbag f p cs h = some (f', h')) :
    Settled h f h' f' := by
  simp only [CilkSan.retireSbag] at hr
  split at hr
  · simp only [Option.bind_eq_bind, Option.bind_eq_some_iff] at hr
    obtain ⟨s, hs, h₁, hc, hr⟩ := hr
    cases hr
    refine of_has (fun b hb => ?_) fun b hb hfb => ?_
    · rw [live_delete, live_createNewSBag, live_combine hc] at hb
      exact hb.1.imp_left fun he => .inl (by rw [he])
    · refine hfb.imp_left fun hsb => ?_
      rw [live_delete] at hb
      exact absurd hsb hb.2
  · cases hr
    exact of_live fun _ hb => hb

theorem createIterbag (hc : f.createIterbag h = some (f', h')) : Settled h f h' f' := by
  simp only [FrameData.createIterbag, Option.bind_eq_bind, Option.bind_eq_some_iff] at hc
  obtain ⟨s, hs, x, hx, d, hd, hc⟩ := hc
  cases hc
  refine of_has (fun b hb => ?_) fun b hb hfb => ?_
  · rw [live_delete, live_createNewSBag] at hb
    exact hb.1.imp_left fun he => .inr (.inr (by rw [he]))
  · rcases hfb with hfb | hfb | hfb
    · exact .inl hfb
    · exact .inr (.inl hfb)
    · rw [live_delete] at hb
      exact absurd hfb hb.2

theorem retireIterbag {p : Nat} {ok : Bool} (hr : CilkSan.retireIterbag f p ok h = some (f', h')) :
    Settled h f h' f' := by
  simp only [CilkSan.retireIterbag] at hr
  split at hr
  · simp only [Option.bind_eq_bind, Option.bind_eq_some_iff] at hr
    obtain ⟨i, hi, h₁, hc, hr⟩ := hr
    exact (of_live fun b hb => (live_combine hc).1 hb).trans (createIterbag hr)
  · cases hr
    exact of_live fun _ hb => hb

end Settled

/-! ## Returning to the parent -/

theorem live_deleteChild {child : FrameData} {h : Bags} {b : Nat}
    (hb : (child.clearPbagArray (child.setSbag none h).2).2.Live b) (hi : child.iterbag = none) :
    h.Live b ∧ ¬ child.Has b := by
  simp only [setSbag, clearPbagArray] at hb
  rw [live_foldl_delete, live_delete] at hb
  refine ⟨hb.1.1, fun hc => ?_⟩
  rcases hc with hc | hc | hc
  · exact hb.1.2 hc
  · exact hb.2 (mem_pbags.2 hc)
  · rw [hi] at hc
    cases hc

theorem Settled.mergeDetached {child parent parent' : FrameData} {r : Nat} {h h' : Bags}
    (hr : r < (parent.pbags.getD []).length)
    (hm : CilkSan.mergeDetached child parent r h = some (parent', h')) :
    Settled h parent h' parent' := by
  simp only [CilkSan.mergeDetached, Option.bind_eq_bind, Option.bind_eq_some_iff] at hm
  obtain ⟨⟨p, f, h₁⟩, hl, h₂, hu, h₃, ha, hm⟩ := hm
  cases hm
  refine (Settled.lazyPbag hr hl).1.trans (.of_live fun b hb => ?_)
  exact (live_combineUsed hu).1 ((live_combineAll ha).1 hb)

theorem foldlM_combine_eq {p : Nat} {l : List (Option Nat)} (hl : ∀ o ∈ l, o.isSome = true) :
    ∀ h : Bags, l.foldlM (fun h o => do h.combine p (← o)) h = combineAll h p l := by
  induction l with
  | nil => exact fun _ => rfl
  | cons o l ih =>
    intro h
    rw [List.forall_mem_cons] at hl
    obtain ⟨q, hq⟩ := Option.isSome_iff_exists.1 hl.1
    simp only [combineAll, List.foldlM_cons, hq, Option.bind_eq_bind, Option.bind_some]
    cases h.combine p q with
    | none => rfl
    | some h₁ => exact ih hl.2 h₁

end Cilksan
