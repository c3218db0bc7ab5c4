/-
Setting a range of bytes (`AbstractLine_t::set`, `Update_iterator::set`),
whatever their entries are.

A line that the range covers whole is made coarse again, and then its old
entries are gone before the new one is made.
-/
import CilkTools.Cilksan.UpdateSpec

namespace Cilksan

namespace Line

variable {β : Type u} (setFn : Option β → β)

/-- The loop of `set`, at most once for each byte of a line. -/
def setLoop (accessedLgGrainsize : Nat) : Nat → Line β → Chunk → Line β × Chunk
  | 0, l, accessed => (l, accessed)
  | n + 1, l, accessed =>
    let l := l.store setFn (l.getIdx (byte accessed.addr))
    let accessed := accessed.next accessedLgGrainsize
    if accessed.isEmpty then (l, accessed)
    else if !isLineStart accessed.addr then setLoop accessedLgGrainsize n l accessed
    else (l, accessed)

def set (l : Line β) (accessed : Chunk) : Line β × Chunk :=
  let accessedLgGrainsize := accessed.getLgGrainsize
  if accessedLgGrainsize = LG_LINE_SIZE then
    let l := if l.lgGrainsize ≠ LG_LINE_SIZE then l.reset else l
    let l := if l.isMaterialized then l else l.materialize
    (l.store setFn 0, accessed.next accessedLgGrainsize)
  else
    let lgGrainsize := l.lgGrainsize
    let l := if lgGrainsize > accessedLgGrainsize then l.refine accessedLgGrainsize else l
    let accessedLgGrainsize :=
      if lgGrainsize < accessedLgGrainsize then lgGrainsize else accessedLgGrainsize
    let l := if l.isMaterialized then l else l.materialize
    setLoop setFn accessedLgGrainsize LINE_SIZE l accessed

/-- The entry from which `set` makes that of byte `b`. -/
def found (l : Line β) (accessed : Chunk) (b : Nat) : Option β :=
  if accessed.getLgGrainsize = LG_LINE_SIZE ∧ l.lgGrainsize ≠ LG_LINE_SIZE then none else l.shadow b

/-- The bytes from `p` to the end of the line, or to `e`, are set from `old`. -/
structure Overwritten (old : Nat → Option β) (l l' : Line β) (p e : Nat) : Prop where
  wf : l'.WF
  shadow :
    ∀ b, SameLine b p → l'.shadow b = if p ≤ b ∧ b < e then some (setFn (old b)) else l.shadow b

variable {setFn} {l : Line β}

theorem setLoop_spec (setFn : Option β → β) {g e : Nat} : ∀ (n : Nat) {p : Nat} {l : Line β}, l.WF →
    l.isMaterialized = true → l.lgGrainsize = g → Chunk.Grain p e g → p < e → lineEnd p - p ≤ n →
    ∃ l' q, setLoop setFn g n l (.upTo p e) = (l', .upTo q e) ∧ q = min e (lineEnd p) ∧
      Overwritten setFn l.shadow l l' p e := by
  intro n
  induction n with
  | zero =>
    intro p l _ _ _ _ _ hn
    have := lt_lineEnd (a := p)
    omega
  | succ n ih =>
    intro p l hw hm hg hgr hpe hn
    obtain ⟨hle, hdvd, hstop⟩ := hgr
    have hpos : 0 < 2 ^ g := Nat.two_pow_pos g
    have hnext : nextMultiple (2 ^ g) p = p + 2 ^ g := nextMultiple_of_dvd hpos hdvd
    have hline : p + 2 ^ g ≤ lineEnd p := by
      rw [← hnext]
      exact nextMultiple_le_nextMultiple (grain_dvd hle) (by decide) p
    have hpe' : p + 2 ^ g ≤ e := by
      rcases Nat.lt_or_ge e (lineEnd p) with h | h
      · rw [← hnext]
        exact nextMultiple_le_of_dvd (hstop h) hpe
      · omega
    obtain ⟨hw₁, hsh⟩ := hw.store hm setFn (p := p)
    rw [hg] at hsh
    have hm₁ : (l.store setFn (l.getIdx (byte p))).isMaterialized = true := by
      simpa [isMaterialized, Line.store] using hm
    -- One entry was set, and the line or the range ends there.
    have hone : p + 2 ^ g = min e (lineEnd p) →
        Overwritten setFn l.shadow l (l.store setFn (l.getIdx (byte p))) p e := fun hend => by
      refine ⟨hw₁, fun b hb => ?_⟩
      have hbl := hb.lt_lineEnd
      rw [hsh b hb]
      simp only [grain_iff hdvd]
      split_ifs <;> first | rfl | omega
    unfold setLoop
    simp only [Chunk.next_upTo, hnext, Chunk.isEmpty_upTo, Chunk.upTo_addr]
    split
    · next he =>
      have hmin : p + 2 ^ g = min e (lineEnd p) := by omega
      exact ⟨_, _, rfl, hmin, hone hmin⟩
    · next he =>
      split
      · next hs =>
        have hlt : p + 2 ^ g < lineEnd p := by
          refine Nat.lt_of_le_of_ne hline fun h => ?_
          have : isLineStart (p + 2 ^ g) = true := isLineStart_iff.2 (h ▸ dvd_nextMultiple p)
          rw [this] at hs
          cases hs
        have hsame : SameLine (p + 2 ^ g) p := sameLine_of_lt (by omega) hlt
        obtain ⟨l', q, heq, hq, hov⟩ := ih hw₁ hm₁ (show _ = g from hg)
          (⟨hle, (Nat.dvd_add_right hdvd).2 (Nat.dvd_refl _),
            fun h => hstop (by rwa [lineEnd_eq hsame] at h)⟩ :
            Chunk.Grain (p + 2 ^ g) e g) (by omega) (by rw [lineEnd_eq hsame]; omega)
        refine ⟨l', q, heq, by rw [hq, lineEnd_eq hsame], hov.wf, fun b hb => ?_⟩
        rw [hov.shadow b (hb.trans hsame.symm), hsh b hb]
        simp only [grain_iff hdvd]
        split_ifs <;> first | rfl | omega
      · next hs =>
        have hend : lineEnd p ≤ p + 2 ^ g :=
          nextMultiple_le_of_dvd (isLineStart_iff.1 (by simpa using hs)) (by omega)
        have hmin : p + 2 ^ g = min e (lineEnd p) := by omega
        exact ⟨_, _, rfl, hmin, hone hmin⟩

theorem WF.set_spec (hw : l.WF) {p e : Nat} (hpe : p < e) (setFn : Option β → β) :
    ∃ l' q, l.set setFn (.upTo p e) = (l', .upTo q e) ∧ q = min e (lineEnd p) ∧
      Overwritten setFn (l.found (.upTo p e)) l l' p e := by
  have hgr := Chunk.grain_getLgGrainsize (Nat.le_of_lt hpe)
  unfold found
  generalize hacc : (Chunk.upTo p e).getLgGrainsize = acc at hgr ⊢
  unfold Line.set
  simp only [hacc]
  split
  · next h9 =>
    cases h9
    have hdvd : 512 ∣ p := hgr.start
    have hle : lineEnd p ≤ e := by
      by_contra hlt
      have h₁ : 512 ∣ e := hgr.stop (by omega)
      have h₂ : lineEnd p ≤ e := nextMultiple_le_of_dvd h₁ hpe
      omega
    -- The line is coarse, with its old entry if it was so before.
    obtain ⟨l₁, hl₁, hw₁, hg₁, hsh₁⟩ :
        ∃ l₁, (if l.lgGrainsize ≠ LG_LINE_SIZE then l.reset else l) = l₁ ∧ l₁.WF ∧
        l₁.lgGrainsize = LG_LINE_SIZE ∧
        ∀ b, l₁.shadow b = if l.lgGrainsize ≠ LG_LINE_SIZE then none else l.shadow b := by
      refine ⟨_, rfl, ?_⟩
      split
      · refine ⟨hw.reset, ?_, hw.shadow_reset⟩
        unfold Line.reset
        split <;> rfl
      · next h => exact ⟨hw, by simpa using h, fun _ => rfl⟩
    obtain ⟨l₂, hl₂, hw₂, hm₂, hg₂, hsh₂⟩ := hw₁.materialized
    obtain ⟨hw', hsh'⟩ := hw₂.store hm₂ setFn (p := p)
    have hidx : l₂.getIdx (byte p) = 0 := by
      unfold getIdx
      rw [hg₂, hg₁]
      exact Nat.div_eq_of_lt (Nat.mod_lt _ (by decide))
    rw [hidx] at hw' hsh'
    rw [hl₁, hl₂]
    refine ⟨_, lineEnd p, by rw [Chunk.next_upTo]; rfl, by omega, hw', fun b hb => ?_⟩
    have hin : p ≤ b ∧ b < e := by
      have := hb.lt_lineEnd
      unfold SameLine at hb
      omega
    rw [hsh' b hb, if_pos (by rw [hg₂, hg₁]; exact hb), if_pos hin, hsh₂, hsh₁]
    simp only [true_and]
  · next h9 =>
    obtain ⟨l₁, hl₁, hw₁, hg₁, hsh₁⟩ :
        ∃ l₁, (if l.lgGrainsize > acc then l.refine acc else l) = l₁ ∧ l₁.WF ∧
        l₁.lgGrainsize = min l.lgGrainsize acc ∧ ∀ b, l₁.shadow b = l.shadow b := by
      refine ⟨_, rfl, ?_⟩
      split
      · next hlt =>
        obtain ⟨h₁, h₂, -, h₄⟩ := hw.refine hlt
        exact ⟨h₁, by rw [h₂]; omega, h₄⟩
      · exact ⟨hw, by omega, fun _ => rfl⟩
    obtain ⟨l₂, hl₂, hw₂, hm₂, hg₂, hsh₂⟩ := hw₁.materialized
    have hacc' : (if l.lgGrainsize < acc then l.lgGrainsize else acc) = min l.lgGrainsize acc := by
      split <;> omega
    rw [hl₁, hl₂, hacc']
    obtain ⟨l', q, heq, hq, hov⟩ := setLoop_spec setFn LINE_SIZE hw₂ hm₂ (hg₂.trans hg₁)
      (hgr.mono (Nat.min_le_right _ _)) hpe
      (by have := nextMultiple_le (g := 512) p; unfold lineEnd LINE_SIZE LG_LINE_SIZE; omega)
    refine ⟨l', q, heq, hq, hov.wf, fun b hb => ?_⟩
    simp only [hov.shadow b hb, hsh₂, hsh₁, h9, false_and, if_false]

end Line

namespace UpdateIterator

variable {β : Type u}

/-- `set`: line by line, with a new page where there is none. -/
def setLoop (setFn : Option β → β) : Nat → Pages β → Chunk → Pages β
  | 0, d, _ => d
  | n + 1, d, accessed =>
    let (l, accessed') := ((d.getLine accessed.addr).getD {}).set setFn accessed
    let d := d.setLine accessed.addr l
    if accessed'.isEmpty then d else setLoop setFn n d accessed'

def set (setFn : Option β → β) (d : Pages β) (accessed : Chunk) : Pages β :=
  setLoop setFn accessed.size d accessed

/-- The entry from which `set`, from `p` to `e`, makes that of byte `b`. -/
def found (d : Pages β) (p e b : Nat) : Option β :=
  (d.lineAt b).found (.upTo (max p (b / 512 * 512)) e) b

variable {d : Pages β} {setFn : Option β → β}

theorem setLoop_spec {e : Nat} : ∀ (n : Nat) {p : Nat} {d : Pages β}, d.WF → e - p ≤ n → p < e →
    (setLoop setFn n d (.upTo p e)).WF ∧ ∀ b, (setLoop setFn n d (.upTo p e)).get b =
      if p ≤ b ∧ b < e then some (setFn (found d p e b)) else d.get b := by
  intro n
  induction n with
  | zero => intro p d _ hn hp; omega
  | succ n ih =>
    intro p d hw hn hp
    have hwl : (d.lineAt p).WF := hw.getD p
    obtain ⟨l', q, heq, hq, hov⟩ := hwl.set_spec hp setFn
    have hlt := lt_lineEnd (a := p)
    -- The bytes of the first line.
    have hfound : ∀ b, SameLine b p → p ≤ b →
        found d p e b = (d.lineAt p).found (.upTo p e) b := fun b hb hpb => by
      unfold found
      rw [Pages.lineAt_congr hb, Nat.max_eq_left (by unfold SameLine at hb; omega)]
    have hget : ∀ b, (d.setLine p l').get b =
        if p ≤ b ∧ b < q then some (setFn (found d p e b)) else d.get b := fun b => by
      by_cases hb : SameLine b p
      · have hbl := hb.lt_lineEnd
        rw [Pages.get_setLine_self hb, hov.shadow b hb, Pages.get_eq, Pages.lineAt_congr hb]
        by_cases hin : p ≤ b ∧ b < e
        · rw [if_pos hin, if_pos ⟨hin.1, by omega⟩, hfound b hb hin.1]
        · rw [if_neg hin, if_neg (by omega)]
      · rw [Pages.get_setLine_of_ne hb, if_neg]
        intro ⟨h₁, h₂⟩
        exact hb (sameLine_of_lt h₁ (by omega))
    unfold setLoop
    have heq' : ((d.getLine p).getD {}).set setFn (.upTo p e) = (l', .upTo q e) := heq
    simp only [Chunk.upTo_addr, heq', Chunk.isEmpty_upTo]
    split
    · next he =>
      refine ⟨hw.setLine hov.wf, fun b => ?_⟩
      rw [hget, show q = e by omega]
    · next he =>
      have hql : q = lineEnd p := by omega
      obtain ⟨hw', hget'⟩ := ih (hw.setLine hov.wf) (p := q) (by omega) (by omega)
      refine ⟨hw', fun b => ?_⟩
      rw [hget', hget]
      by_cases hb : q ≤ b ∧ b < e
      · -- A later line, which is as it was.
        have hne : ¬ SameLine b p := fun h => by have := h.lt_lineEnd; omega
        have hstart : q ≤ b / 512 * 512 := by
          obtain ⟨k, hk⟩ : 512 ∣ q := hql ▸ dvd_nextMultiple p
          have hd := Nat.div_le_div_right (c := 512) hb.1
          rw [hk, Nat.mul_div_cancel_left _ (by decide)] at hd
          omega
        have hf : found (d.setLine p l') q e b = found d p e b := by
          unfold found
          rw [Pages.lineAt_setLine_of_ne hne, Nat.max_eq_right hstart, Nat.max_eq_right (by omega)]
        rw [if_pos hb, if_pos (by omega), hf]
      · rw [if_neg hb]
        split_ifs <;> first | rfl | omega

/-- **The bytes of the range are set**, and no others. -/
theorem set_spec (hw : d.WF) (setFn : Option β → β) {p e : Nat} (hpe : p < e) :
    (set setFn d (.upTo p e)).WF ∧ ∀ b, (set setFn d (.upTo p e)).get b =
      if p ≤ b ∧ b < e then some (setFn (found d p e b)) else d.get b :=
  setLoop_spec _ hw (Nat.le_refl _) hpe

end UpdateIterator

end Cilksan
