/-
Where on the shadow stack an earlier access is, and what that says about its
strand: an access in an S-bag has a path to the activation's current strand,
one in a P-bag reaches only the ends of tasks of that region, and so on.

`R x` stands for "there is a path from the access's strand to strand `x`".
Each hook moves an access to another place, or leaves it where it is; the
lemmas say which of the two, one hook at a time.
-/
import CilkTools.Cilksan.FrameSpec
import CilkTools.Cilksan.Program

namespace Cilksan

/-- The last strands of what the activation has run so far and not yet left. -/
def Activation.Ends (a : Activation) (x : Nat) : Prop :=
  x = a.cur ∨ (∃ r, x ∈ a.pend r) ∨ x ∈ a.done

/-- The access was made before the loop, if `a` is one, was begun. -/
def Before (e : LoggedAccess) (a : Activation) : Prop :=
  ∀ id, a.kind = .loop id → ∀ j, (id, j) ∉ e.ctx ∧ e.direct ≠ some (id, j)

/-- The access was not made by the loop itself, if `a` is one, nor in an
earlier iteration of it. -/
def Within (e : LoggedAccess) (a : Activation) : Prop :=
  ∀ id, a.kind = .loop id → ∀ j, ((id, j) ∈ e.ctx → j = a.iter) ∧ e.direct ≠ some (id, j)

/-- The access reaches nothing of the activations below its own. -/
def Outside (R : Nat → Prop) (e : LoggedAccess) (as : List Activation) : Prop :=
  ∀ a ∈ as, (∀ x, a.Ends x → ¬ R x) ∧ Within e a

/-- Access `e`, recorded with version `v`, is in bag `b` of the stack. -/
inductive Placed (R : Nat → Prop) (e : LoggedAccess) (b v : Nat) :
    List FrameData → List Activation → Prop
  | sbag {f fs a as} (hb : f.sbag = some b) (hu : f.sbagUsed = true) (hr : R a.cur)
      (hw : Within e a) (ho : Outside R e as) : Placed R e b v (f :: fs) (a :: as)
  | iterbag {f fs a as id} (hb : f.iterbag = some b) (hu : f.iterbagUsed = true)
      (hk : a.kind = .loop id)
      (ha : a.active = true) (hr : R a.cur) (hd : e.direct = some (id, a.iter))
      (hc : ∀ j, (id, j) ∈ e.ctx → j = a.iter) (hv : v = a.iter % versionEnd)
      (ho : Outside R e as) : Placed R e b v (f :: fs) (a :: as)
  | pbag {f fs a as} (r : Nat) (hb : f.pbag r = some b) (hr : ¬ R a.cur)
      (hp : ∀ r', r' ≠ r → ∀ x ∈ a.pend r', ¬ R x)
      (hx : (∃ x ∈ a.pend r, R x) ∧ Within e a ∨ a.stale r = true ∧ ∃ x ∈ a.done, R x)
      (hw : ∀ id, a.kind = .loop id → ∀ j, e.direct = some (id, j) →
        j / versionEnd < a.iter / versionEnd)
      (ho : Outside R e as) : Placed R e b v (f :: fs) (a :: as)
  | olditer {f fs a as id j} (hb : f.iterbag = some b) (hu : f.iterbagUsed = true)
      (hk : a.kind = .loop id)
      (hr : ¬ R a.cur) (hp : ∀ r, ∀ x ∈ a.pend r, ¬ R x) (hx : ∃ x ∈ a.done, R x)
      (hd : e.direct = some (id, j)) (hj : j < a.iter) (hjw : j / versionEnd = a.iter / versionEnd)
      (hv : v = j % versionEnd) (ho : Outside R e as) : Placed R e b v (f :: fs) (a :: as)
  | under {f fs a a' as} (he : Before e a) (hr : R a.cur ↔ R a'.cur)
      (hn : ¬ R a'.cur → ∀ x, a.Ends x → ¬ R x) (h : Placed R e b v fs (a' :: as)) :
      Placed R e b v (f :: fs) (a :: a' :: as)

namespace Placed

variable {R R' : Nat → Prop} {e : LoggedAccess} {b v n : Nat} {f f' g : FrameData}
  {fs : List FrameData}
variable {a a' a₀ : Activation} {as : List Activation}

theorem outside_congr (hR : ∀ a ∈ as, ∀ x, a.Ends x → (R' x ↔ R x)) (h : Outside R e as) :
    Outside R' e as :=
  fun a ha => ⟨fun x hx hr => (h a ha).1 x hx ((hR a ha x hx).1 hr), (h a ha).2⟩

/-- Only what an access reaches of the stack's ends matters. -/
theorem congr (h : Placed R e b v fs as) (hR : ∀ a ∈ as, ∀ x, a.Ends x → (R' x ↔ R x)) :
    Placed R' e b v fs as := by
  induction h with
  | @sbag f fs a as hb hu hr hw ho =>
    exact .sbag hb hu ((hR a (by simp) _ (.inl rfl)).2 hr) hw
      (outside_congr (fun a ha => hR a (by simp [ha])) ho)
  | @iterbag f fs a as id hb hu hk ha hr hd hc hv ho =>
    exact .iterbag hb hu hk ha ((hR a (by simp) _ (.inl rfl)).2 hr) hd hc hv
      (outside_congr (fun a ha => hR a (by simp [ha])) ho)
  | @pbag f fs a as r hb hr hp hx hw ho =>
    have hR' := hR a (by simp)
    refine .pbag r hb (fun h => hr ((hR' _ (.inl rfl)).1 h))
      (fun r' hr' x hx h => hp r' hr' x hx ((hR' x (.inr (.inl ⟨r', hx⟩))).1 h)) ?_ hw
      (outside_congr (fun a ha => hR a (by simp [ha])) ho)
    rcases hx with ⟨⟨x, hx, hrx⟩, hwi⟩ | ⟨hs, x, hx, hrx⟩
    · exact .inl ⟨⟨x, hx, (hR' x (.inr (.inl ⟨r, hx⟩))).2 hrx⟩, hwi⟩
    · exact .inr ⟨hs, x, hx, (hR' x (.inr (.inr hx))).2 hrx⟩
  | @olditer f fs a as id j hb hu hk hr hp hx hd hj hjw hv ho =>
    have hR' := hR a (by simp)
    obtain ⟨x, hx, hrx⟩ := hx
    exact .olditer hb hu hk (fun h => hr ((hR' _ (.inl rfl)).1 h))
      (fun r x hx h => hp r x hx ((hR' x (.inr (.inl ⟨r, hx⟩))).1 h))
      ⟨x, hx, (hR' x (.inr (.inr hx))).2 hrx⟩
      hd hj hjw hv (outside_congr (fun a ha => hR a (by simp [ha])) ho)
  | @under f fs a a' as he hr hn _ ih =>
    have hRa := hR a (by simp)
    have hRa' := hR a' (by simp) _ (.inl rfl)
    refine .under he ?_ (fun h x hx hrx => ?_) (ih fun c hc => hR c (by simp at hc ⊢; tauto))
    · rw [hRa _ (.inl rfl), hRa', hr]
    · exact hn (fun h' => h (hRa'.2 h')) x hx ((hRa x hx).1 hrx)

/-- The bag is a bag of the stack. -/
theorem has (h : Placed R e b v fs as) : ∃ f ∈ fs, f.Has b := by
  induction h with
  | sbag hb => exact ⟨_, by simp, .inl hb⟩
  | iterbag hb => exact ⟨_, by simp, .inr (.inr hb)⟩
  | pbag r hb => exact ⟨_, by simp, .inr (.inl ⟨r, hb⟩)⟩
  | olditer hb => exact ⟨_, by simp, .inr (.inr hb)⟩
  | under _ _ _ _ ih =>
    obtain ⟨f, hf, hb⟩ := ih
    exact ⟨f, by simp [hf], hb⟩

/-! ## Only the head changes, and not what it holds -/

/-- The frames hold the same bags, and `f'` has used those that `f` has. -/
structure SameBags (f f' : FrameData) : Prop where
  sbag : f'.sbag = f.sbag
  pbag : ∀ r, f'.pbag r = f.pbag r
  iterbag : f'.iterbag = f.iterbag
  sbagUsed : f.sbagUsed = true → f'.sbagUsed = true
  iterbagUsed : f.iterbagUsed = true → f'.iterbagUsed = true

theorem SameBags.has (h : SameBags f f') (hb : f'.Has b) : f.Has b := by
  rcases hb with hb | ⟨r, hb⟩ | hb
  · exact .inl (h.sbag ▸ hb)
  · exact .inr (.inl ⟨r, h.pbag r ▸ hb⟩)
  · exact .inr (.inr (h.iterbag ▸ hb))

theorem SameBags.refl (f : FrameData) : SameBags f f := ⟨rfl, fun _ => rfl, rfl, id, id⟩

theorem head (h : Placed R e b v (f :: fs) (a :: as)) (hf : SameBags f f') (hk : a'.kind = a.kind)
    (hp : a'.pend = a.pend) (hi : a'.iter = a.iter) (hd : a'.done = a.done)
    (hs : a'.stale = a.stale) (ha : a.active = true → a'.active = true) (hc : R a'.cur ↔ R a.cur) :
    Placed R e b v (f' :: fs) (a' :: as) := by
  have hw : Within e a → Within e a' := fun hw id hid j => by rw [hi]; exact hw id (hk ▸ hid) j
  cases h with
  | sbag hb hu hr hwi ho => exact .sbag (hf.sbag.trans hb) (hf.sbagUsed hu) (hc.2 hr) (hw hwi) ho
  | iterbag hb hu hk' ha' hr hd' hc' hv ho =>
    exact .iterbag (hf.iterbag.trans hb) (hf.iterbagUsed hu) (hk.trans hk') (ha ha') (hc.2 hr)
      (by rw [hi]; exact hd') (by rw [hi]; exact hc') (by rw [hi]; exact hv) ho
  | pbag r hb hr hpe hx hwi ho =>
    refine .pbag r ((hf.pbag r).trans hb) (fun h => hr (hc.1 h)) (by rw [hp]; exact hpe) ?_
      (by rw [hk, hi]; exact hwi) ho
    rw [hp, hs, hd]
    exact hx.imp_left fun h => ⟨h.1, hw h.2⟩
  | olditer hb hu hk' hr hpe hx hd' hj hjw hv ho =>
    exact .olditer (hf.iterbag.trans hb) (hf.iterbagUsed hu) (hk.trans hk') (fun h => hr (hc.1 h))
      (by rw [hp]; exact hpe) (by rw [hd]; exact hx) hd' (by rw [hi]; exact hj)
      (by rw [hi]; exact hjw) hv ho
  | under he hr hn h =>
    refine .under (fun id hid => he id (hk ▸ hid)) (hc.trans hr) (fun hna x hx => ?_) h
    rcases hx with rfl | hx
    · exact fun h => hn hna _ (.inl rfl) (hc.1 h)
    · exact hn hna x (.inr (by rw [← hp, ← hd]; exact hx))

/-- A new activation goes on top. -/
theorem push (h : Placed R e b v (f :: fs) (a :: as)) (he : Before e a₀)
    (hp : a₀.pend = fun _ => [])
    (hd : a₀.done = []) (hc : R a₀.cur ↔ R a.cur) :
    Placed R e b v (g :: f :: fs) (a₀ :: a :: as) := by
  refine .under he hc (fun hn x hx => ?_) h
  rcases hx with rfl | ⟨r, hx⟩ | hx
  · exact fun h => hn (hc.1 h)
  · rw [hp] at hx; cases hx
  · rw [hd] at hx; cases hx

/-! ## `do_sync` -/

/-- The access moves with the region's P-bag to the S-bag, or stays. -/
theorem sync {r s : Nat} (h : Placed R e b v (f :: fs) (a :: as))
    (hd : ∀ q, f.pbag q = some b → f.pbag r = some b → q = r)
    (hst : a.stale r = false) (hs : f.sbag = some s) (hsb : f.pbag r ≠ some s)
    (hib : f.iterbag ≠ f.pbag r ∨ f.pbag r = none)
    (hap : ∀ g ∈ fs, f.Apart g) (hs' : f'.sbag = some s)
    (hu' : f'.sbagUsed = (f.sbagUsed || (f.pbag r).isSome))
    (hi' : f'.iterbag = f.iterbag) (hiu' : f'.iterbagUsed = f.iterbagUsed)
    (hpb : ∀ q, f'.pbag q = if q = r then none else f.pbag q)
    (hn : R n ↔ R a.cur ∨ ∃ x ∈ a.pend r, R x) : f.pbag r = some b ∧
        Placed R e s v (f' :: fs) ({ a with cur := n, pend := Function.update a.pend r [] } :: as) ∨
      f.pbag r ≠ some b ∧
        Placed R e b v (f' :: fs)
        ({ a with cur := n, pend := Function.update a.pend r [] } :: as) := by
  have hpe : ∀ {r' x}, x ∈ Function.update a.pend r [] r' →
      r' ≠ r ∧ x ∈ a.pend r' := fun {r' x} hx => by
    by_cases hr' : r' = r
    · subst hr'; simp at hx
    · rw [Function.update_of_ne hr'] at hx
      exact ⟨hr', hx⟩
  cases h with
  | sbag hb hu hr hw ho =>
    have : b = s := Option.some.inj (hb.symm.trans hs)
    subst this
    exact .inr ⟨hsb, .sbag hs' (by simp [hu', hu]) (hn.2 (.inl hr)) hw ho⟩
  | iterbag hb hu hk ha hr hd hc hv ho =>
    refine .inr ⟨fun h => ?_, .iterbag (hi'.trans hb) (by rw [hiu', hu]) hk ha
      (hn.2 (.inl hr)) hd hc hv ho⟩
    rcases hib with hib | hib
    · exact hib (hb.trans h.symm)
    · rw [hib] at h; cases h
  | pbag q hb hr hp hx hw ho =>
    by_cases hq : q = r
    · subst hq
      rcases hx with ⟨hx, hwi⟩ | ⟨hs, -⟩
      · exact .inl ⟨hb, .sbag hs' (by simp [hu', hb]) (hn.2 (.inr hx)) hwi ho⟩
      · rw [hst] at hs; cases hs
    · refine .inr ⟨fun h => hq (hd q hb h), .pbag q (by rw [hpb, if_neg hq]; exact hb) (fun h => ?_)
        (fun r' hr' x hx => hp r' hr' x (hpe hx).2) ?_ hw ho⟩
      · rcases hn.1 h with h | ⟨x, hx, hrx⟩
        · exact hr h
        · exact hp r (Ne.symm hq) x hx hrx
      · simp only [Function.update_of_ne hq]
        exact hx
  | olditer hb hu hk hr hp hx hd hj hjw hv ho =>
    refine .inr ⟨fun h => ?_, .olditer (hi'.trans hb) (by rw [hiu', hu]) hk (fun h => ?_)
      (fun r' x hx => hp r' x (hpe hx).2) hx hd hj hjw hv ho⟩
    · rcases hib with hib | hib
      · exact hib (hb.trans h.symm)
      · rw [hib] at h; cases h
    · rcases hn.1 h with h | ⟨x, hx, hrx⟩
      · exact hr h
      · exact hp r x hx hrx
  | @under _ _ _ a' as he hr hne h =>
    refine .inr ⟨fun hb => ?_, .under he ?_ (fun hna x hx => ?_) h⟩
    · obtain ⟨g, hg, hgb⟩ := h.has
      exact hap g hg b (.inr (.inl ⟨r, hb⟩)) hgb
    · rw [hn, hr]
      exact ⟨fun h => h.elim id fun ⟨x, hx, hrx⟩ => by
        by_contra hna
        exact hne hna x (.inr (.inl ⟨r, hx⟩)) hrx, .inl⟩
    · rcases hx with rfl | ⟨r', hx⟩ | hx
      · intro hrn
        rcases hn.1 hrn with h | ⟨x, hx, hrx⟩
        · exact hna (hr.1 h)
        · exact hne hna x (.inr (.inl ⟨r, hx⟩)) hrx
      · exact hne hna x (.inr (.inl ⟨r', (hpe hx).2⟩))
      · exact hne hna x (.inr (.inr hx))

/-! ## Returning to the parent -/

/-- A called function has synced and returns: what was in its S-bag is in the
parent's. -/
theorem returnCalled {s t : Nat} {a' : Activation}
    (h : Placed R e b v (f :: g :: fs) (a :: a' :: as))
    (hk : a.isLoop = false) (hp : ∀ r, a.pend r = []) (hst : ∀ r, a.stale r = false)
    (hs : f.sbag = some s)
    (ht : g.sbag = some t) (hn : R n ↔ R a.cur) (hap : ∀ g' ∈ g :: fs, f.Apart g') :
    b = s ∧ f.sbagUsed = true ∧
        Placed R e t v ({ g with sbagUsed := g.sbagUsed || f.sbagUsed } :: fs)
        ({ a' with cur := n } :: as) ∨
      ¬ f.Has b ∧
        Placed R e b v ({ g with sbagUsed := g.sbagUsed || f.sbagUsed } :: fs)
        ({ a' with cur := n } :: as) := by
  have hloop : ∀ {id}, a.kind ≠ .loop id := fun {id} hid => by
    simp [Activation.isLoop, hid] at hk
  cases h with
  | sbag hb hu hr hw ho =>
    refine .inl ⟨Option.some.inj (hb.symm.trans hs), hu, .sbag ht (by simp [hu]) (hn.2 hr)
      (ho a' (by simp)).2 fun c hc => ho c (by simp [hc])⟩
  | iterbag _ _ hk' => exact absurd hk' hloop
  | pbag r _ _ _ hx =>
    rcases hx with ⟨⟨x, hx, -⟩, -⟩ | ⟨hx, -⟩
    · rw [hp] at hx; cases hx
    · rw [hst] at hx; cases hx
  | olditer _ _ hk' => exact absurd hk' hloop
  | under he hr hne h =>
    refine .inr ⟨fun hb => ?_,
      h.head ⟨rfl, fun _ => rfl, rfl, fun hu => by simp [hu], id⟩ rfl rfl rfl rfl rfl id ?_⟩
    · obtain ⟨g', hg, hgb⟩ := h.has
      exact hap g' hg b hb hgb
    · exact hn.trans hr

/-- A returning child leaves last strands to a region of the parent. -/
theorem addPend {r q : Nat} {E : List Nat} (h : Placed R e b v (f :: fs) (a :: as))
    (hr : r < (f.pbags.getD []).length)
    (hq : f.pbag r = some q ∨ f.pbag r = none) (hE : ¬ R a.cur → ∀ x ∈ E, ¬ R x)
    (hn : R n ↔ R a.cur) : Placed R e b v (f.withPbag r (some q) :: fs)
      ({ a with cur := n, pend := Function.update a.pend r (a.pend r ++ E) } :: as) := by
  have hpb := FrameData.pbag_withPbag hr (some q)
  have hpe : ∀ {r' x}, x ∈ Function.update a.pend r (a.pend r ++ E) r' →
    x ∈ a.pend r' ∨ r' = r ∧ x ∈ E := fun {r' x} hx => by
      by_cases hr' : r' = r
      · subst hr'
        rw [Function.update_self, List.mem_append] at hx
        exact hx.imp_right fun h => ⟨rfl, h⟩
      · rw [Function.update_of_ne hr'] at hx
        exact .inl hx
  have hpe' : ∀ {r' x}, x ∈ a.pend r' →
      x ∈ Function.update a.pend r (a.pend r ++ E) r' := fun {r' x} hx => by
    by_cases hr' : r' = r
    · subst hr'; simp [hx]
    · rw [Function.update_of_ne hr']; exact hx
  cases h with
  | sbag hb hu hra hw ho => exact .sbag hb hu (hn.2 hra) hw ho
  | iterbag hb hu hk ha hra hd hc hv ho => exact .iterbag hb hu hk ha (hn.2 hra) hd hc hv ho
  | pbag k hb hra hp hx hw ho =>
    refine .pbag k ?_ (fun h => hra (hn.1 h)) (fun r' hr' x hx => ?_) ?_ hw ho
    · rw [hpb]
      split
      · next hkr =>
        subst hkr
        rcases hq with hq | hq
        · rw [← hq, hb]
        · rw [hq] at hb; cases hb
      · exact hb
    · rcases hpe hx with hx | ⟨-, hx⟩
      · exact hp r' hr' x hx
      · exact hE hra x hx
    · rcases hx with ⟨⟨x, hx, hrx⟩, hwi⟩ | hx
      · exact .inl ⟨⟨x, hpe' hx, hrx⟩, hwi⟩
      · exact .inr hx
  | olditer hb hu hk hra hp hx hd hj hjw hv ho =>
    refine .olditer hb hu hk (fun h => hra (hn.1 h)) (fun r' x hx => ?_) hx hd hj hjw hv ho
    rcases hpe hx with hx | ⟨-, hx⟩
    · exact hp r' x hx
    · exact hE hra x hx
  | under he hra hne h =>
    refine .under he (hn.trans hra) (fun hna x hx => ?_) h
    rcases hx with rfl | ⟨r', hx⟩ | hx
    · exact fun h => hna (hra.1 (hn.1 h))
    · rcases hpe hx with hx | ⟨-, hx⟩
      · exact hne hna x (.inr (.inl ⟨r', hx⟩))
      · exact hE (fun h => hna (hra.1 h)) x hx
    · exact hne hna x (.inr (.inr hx))

/-- What an activation below the head's sees in the region it was left to. -/
theorem of_left {r q x : Nat} {E : List Nat} (ho : Outside R e (a :: as))
    (hr : r < (f.pbags.getD []).length) (hx : x ∈ E) (hrx : R x) (hn : R n ↔ R a.cur) :
    Placed R e q v (f.withPbag r (some q) :: fs)
      ({ a with cur := n, pend := Function.update a.pend r (a.pend r ++ E) } :: as) := by
  obtain ⟨hends, hwi⟩ := ho a (by simp)
  refine .pbag r (by rw [FrameData.pbag_withPbag hr, if_pos rfl])
    (fun h => hends _ (.inl rfl) (hn.1 h))
    (fun r' hr' y hy => ?_) (.inl ⟨⟨x, by simp [hx], hrx⟩, hwi⟩)
    (fun id hid j hj => absurd hj (hwi id hid j).2) fun c hc => ho c (by simp [hc])
  simp only [Function.update_of_ne hr'] at hy
  exact hends y (.inr (.inl ⟨r', hy⟩))

/-- A task returns: all that was its own is in the parent's P-bag. -/
theorem returnTask {r q : Nat} {a' : Activation} (h : Placed R e b v (f :: g :: fs) (a :: a' :: as))
    (hk : a.isLoop = false) (hpl : ∀ r, ∀ x ∈ a.pend r, x ∈ a.unsynced)
    (hst : ∀ r, a.stale r = false)
    (hr : r < (g.pbags.getD []).length) (hq : g.pbag r = some q ∨ g.pbag r = none)
    (hn : R n ↔ R a'.cur) (hap : ∀ g' ∈ g :: fs, f.Apart g') :
    (f.sbagUsed = true ∧ f.sbag = some b ∨ ∃ r, f.pbag r = some b) ∧
        Placed R e q v (g.withPbag r (some q) :: fs)
          ({ a' with
            cur := n
            pend := Function.update a'.pend r (a'.pend r ++ a.cur :: a.unsynced) } :: as) ∨
      ¬ f.Has b ∧
        Placed R e b v (g.withPbag r (some q) :: fs)
          ({ a' with
            cur := n
            pend := Function.update a'.pend r (a'.pend r ++ a.cur :: a.unsynced) } :: as) := by
  have hloop : ∀ {id}, a.kind ≠ .loop id := fun {id} hid => by
    simp [Activation.isLoop, hid] at hk
  cases h with
  | sbag hb hu hra hw ho => exact .inl ⟨.inl ⟨hu, hb⟩, of_left ho hr (by simp) hra hn⟩
  | iterbag _ _ hk' => exact absurd hk' hloop
  | pbag k hb _ _ hx _ ho =>
    rcases hx with ⟨⟨x, hx, hrx⟩, -⟩ | ⟨hx, -⟩
    · exact .inl ⟨.inr ⟨k, hb⟩, of_left ho hr (by simp [hpl k x hx]) hrx hn⟩
    · rw [hst] at hx; cases hx
  | olditer _ _ hk' => exact absurd hk' hloop
  | under he hra hne h =>
    refine .inr ⟨fun hb => ?_, h.addPend hr hq (fun hna x hx => ?_) hn⟩
    · obtain ⟨g', hg, hgb⟩ := h.has
      exact hap g' hg b hb hgb
    · refine hne hna x ?_
      simp only [List.mem_cons, Activation.unsynced, List.mem_flatMap] at hx
      rcases hx with rfl | ⟨k, -, hx⟩
      · exact .inl rfl
      · exact .inr (.inl ⟨k, hx⟩)

/-! ## Loops -/

/-- The frame of a loop between two iterations: what is not its own reaches
its current strand exactly if it reaches its parent's. -/
theorem cur_iff_of_idle {a' : Activation} (h : Placed R e b v (f :: fs) (a :: a' :: as))
    (hu : f.sbagUsed = false) (ha : a.active = false) : R a.cur ↔ R a'.cur := by
  cases h with
  | sbag _ hu' => rw [hu] at hu'; cases hu'
  | iterbag _ _ _ ha' => rw [ha] at ha'; cases ha'
  | pbag _ _ hr _ _ _ ho => exact iff_of_false hr ((ho a' (by simp)).1 _ (.inl rfl))
  | olditer _ _ _ hr _ _ _ _ _ _ ho => exact iff_of_false hr ((ho a' (by simp)).1 _ (.inl rfl))
  | under _ hr => exact hr

/-- A loop ends: what was its own is in the parent's P-bag. -/
theorem loopEnd {r q i : Nat} {a' : Activation} (h : Placed R e b v (f :: g :: fs) (a :: a' :: as))
    (hu : f.sbagUsed = false) (ha : a.active = false) (hp : ∀ r, a.pend r = [])
    (hi : f.iterbag = some i)
    (hr : r < (g.pbags.getD []).length) (hq : g.pbag r = some q ∨ g.pbag r = none)
    (hn : R n ↔ R a'.cur) (hap : ∀ g' ∈ g :: fs, f.Apart g') :
    (f.iterbagUsed = true ∧ b = i ∨ ∃ r, f.pbag r = some b) ∧
        Placed R e q v (g.withPbag r (some q) :: fs)
          ({ a' with cur := n, pend := Function.update a'.pend r (a'.pend r ++ a.done) } :: as) ∨
      ¬ f.Has b ∧
        Placed R e b v (g.withPbag r (some q) :: fs)
          ({ a' with cur := n, pend := Function.update a'.pend r (a'.pend r ++ a.done) } ::
            as) := by
  cases h with
  | sbag _ hu' => rw [hu] at hu'; cases hu'
  | iterbag _ _ _ ha' => rw [ha] at ha'; cases ha'
  | pbag k hb _ _ hx _ ho =>
    rcases hx with ⟨⟨x, hx, -⟩, -⟩ | ⟨-, x, hx, hrx⟩
    · rw [hp] at hx; cases hx
    · exact .inl ⟨.inr ⟨k, hb⟩, of_left ho hr hx hrx hn⟩
  | olditer hb hu' _ _ _ hx _ _ _ _ ho =>
    obtain ⟨x, hx, hrx⟩ := hx
    exact .inl ⟨.inl ⟨hu', Option.some.inj (hb.symm.trans hi)⟩, of_left ho hr hx hrx hn⟩
  | under he hra hne h =>
    refine .inr ⟨fun hb => ?_, h.addPend hr hq (fun hna x hx => hne hna x (.inr (.inr hx))) hn⟩
    obtain ⟨g', hg, hgb⟩ := h.has
    exact hap g' hg b hb hgb

/-- An iteration ends: what was in the S-bag, and when the version wraps what
was in the Iter-bag, is in the P-bag of region 0. -/
theorem iterationEnd {h h' : Bags} {s i p d : Nat} {a' : Activation} {stale : Nat → Bool}
    (hpl : Placed R e b v (f :: fs) (a :: a' :: as)) (ho : h.Owned d b) (hok : f.Ok h)
    (hend : CilkSan.IterationEnd h h' f f' s i (a.iter % versionEnd) p) (hs : f.sbag = some s)
    (hi : f.iterbag = some i) (hend₁ : ∀ r, ∀ x ∈ a.pend r, x ∈ a.unsynced) (hst₀ : stale 0 = true)
    (hst : ∀ r, a.stale r = true ∨ a.pend r ≠ [] → stale r = true) (hn : R n ↔ R a'.cur)
    (hap : ∀ g ∈ fs, f.Apart g) :
    ∃ b', h'.Owned d b' ∧ Placed R e b' v (f' :: fs) ({ a with
      cur := n, pend := fun _ => [], iter := a.iter + 1, active := false,
      done := a.done ++ a.cur :: a.unsynced, stale } :: a' :: as) := by
  obtain ⟨s', hs', hsi⟩ := hok.sbag
  rw [hs] at hs'
  cases hs'
  have his := (hok.iterbag hi).1
  have hnr : ∀ {as'}, Outside R e (a' :: as') → ¬ R n :=
    fun ho hr => (ho a' (by simp)).1 _ (.inl rfl) (hn.1 hr)
  have hwrap : ((a.iter % versionEnd) + 1) % versionEnd = (a.iter + 1) % versionEnd := by
    simp [versionEnd]
  have hdiv : (a.iter + 1) % versionEnd = 0 →
      a.iter / versionEnd < (a.iter + 1) / versionEnd := fun h => by
    simp only [versionEnd] at h ⊢; omega
  have hdiv' : (a.iter + 1) % versionEnd ≠ 0 →
      a.iter / versionEnd = (a.iter + 1) / versionEnd := fun h => by
    simp only [versionEnd] at h ⊢; omega
  have hpb₀ : f'.pbag 0 = some p := by rw [hend.pbag, if_pos rfl]
  cases hpl with
  | sbag hb hu hr hw hout =>
    have : b = s := Option.some.inj (hb.symm.trans hs)
    subst this
    exact ⟨p, hend.sMoved hu ho, .pbag 0 hpb₀ (hnr hout) (by simp) (.inr ⟨hst₀, a.cur, by simp, hr⟩)
      (fun id hid j hj => absurd hj (hw id hid j).2) hout⟩
  | @iterbag _ _ _ _ id hb hu hk ha hr hd hc hv hout =>
    have : b = i := Option.some.inj (hb.symm.trans hi)
    subst this
    by_cases hwr : (a.iter + 1) % versionEnd = 0
    · refine ⟨p, hend.iMoved hu (hwrap.trans hwr) ho, .pbag 0 hpb₀ (hnr hout) (by simp)
        (.inr ⟨hst₀, a.cur, by simp, hr⟩) (fun id' hid j hj => ?_) hout⟩
      rw [hd] at hj
      cases hj
      exact hdiv hwr
    · obtain ⟨i', x, hi', -, -, hii⟩ := hend.iterbag
      rcases hii with ⟨rfl, hu', -⟩ | ⟨-, hw'⟩
      · exact ⟨i', hend.iKept (by rw [hwrap]; exact hwr) ho,
          .olditer hi' (hu'.trans hu) hk (hnr hout) (by simp)
          ⟨a.cur, by simp, hr⟩ hd (Nat.lt_succ_self _) (hdiv' hwr) hv hout⟩
      · exact absurd (hwrap.symm.trans hw') hwr
  | pbag r hb hr hp hx hw hout =>
    have hbp := hok.pbag hb
    have hbs : b ≠ s := by rintro rfl; exact absurd (hsi.type_eq hbp) (by simp)
    have hbi : b ≠ i := by rintro rfl; exact absurd (his.type_eq hbp) (by simp)
    refine ⟨b, hend.kept hbs hbi ho, .pbag r ?_ (hnr hout) (by simp) (.inr ?_)
      (fun id hid j hj => ?_) hout⟩
    · rw [hend.pbag]
      split
      · next hr0 =>
        subst hr0
        rcases hend.fresh with hf | hf
        · rw [← hf, hb]
        · rw [hf] at hb; cases hb
      · exact hb
    · rcases hx with ⟨⟨x, hx, hrx⟩, -⟩ | ⟨hs, x, hx, hrx⟩
      · exact ⟨hst r (.inr fun hnil => by rw [hnil] at hx; cases hx), x,
          by simp [hend₁ r x hx], hrx⟩
      · exact ⟨hst r (.inl hs), x, by simp [hx], hrx⟩
    · exact Nat.lt_of_lt_of_le (hw id hid j hj) (Nat.div_le_div_right (Nat.le_succ _))
  | @olditer _ _ _ _ id j hb hu hk hr hp hx hd hj hjw hv hout =>
    have : b = i := Option.some.inj (hb.symm.trans hi)
    subst this
    obtain ⟨x, hx, hrx⟩ := hx
    by_cases hwr : (a.iter + 1) % versionEnd = 0
    · refine ⟨p, hend.iMoved hu (hwrap.trans hwr) ho, .pbag 0 hpb₀ (hnr hout) (by simp)
        (.inr ⟨hst₀, x, by simp [hx], hrx⟩) (fun id' hid j' hj' => ?_) hout⟩
      rw [hd] at hj'
      cases hj'
      rw [hjw]
      exact hdiv hwr
    · obtain ⟨i', y, hi', -, -, hii⟩ := hend.iterbag
      rcases hii with ⟨rfl, hu', -⟩ | ⟨-, hw'⟩
      · exact ⟨i', hend.iKept (by rw [hwrap]; exact hwr) ho,
          .olditer hi' (hu'.trans hu) hk (hnr hout) (by simp)
          ⟨x, by simp [hx], hrx⟩ hd (Nat.lt_succ_of_lt hj) (hjw.trans (hdiv' hwr)) hv hout⟩
      · exact absurd (hwrap.symm.trans hw') hwr
  | under he hr hne hin =>
    have hnb : ¬ f.Has b := fun hb => by
      obtain ⟨g, hg, hgb⟩ := hin.has
      exact hap g hg b hb hgb
    refine ⟨b, hend.kept (by rintro rfl; exact hnb (.inl hs))
      (by rintro rfl; exact hnb (.inr (.inr hi))) ho, .under he hn (fun hna x hx => ?_) hin⟩
    simp only [Activation.Ends, List.not_mem_nil, exists_false, false_or, List.mem_append,
      List.mem_cons, Activation.unsynced, List.mem_flatMap] at hx
    rcases hx with rfl | hx | rfl | ⟨r, -, hx⟩
    · exact fun h => hna (hn.1 h)
    · exact hne hna x (.inr (.inr hx))
    · exact hne hna _ (.inl rfl)
    · exact hne hna x (.inr (.inl ⟨r, hx⟩))

end Placed

end Cilksan
