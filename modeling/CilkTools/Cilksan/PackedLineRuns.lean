/-
Operations on stored lines, one after the other: whatever they are, the fields of
the word stay what they should be, and no entry outside of the array is touched.
-/
import CilkTools.Cilksan.PackedLine

namespace Cilksan

open DataPtr

namespace PackedLine

variable {β : Type u} {l : PackedLine β} {m : Line β}

/-! ## Loops over a line -/

theorem next_addr (c : Chunk) (g : Nat) : (c.next g).addr = nextMultiple (2 ^ g) c.addr := by
  unfold Chunk.next
  rw [alignByNextGrainsize_eq]
  dsimp only
  split <;> rfl

/-- The rest of the line gets shorter, until its end. -/
theorem rest_next {c : Chunk} {g n : Nat} (hg : g ≤ 9) (hs : isLineStart (c.next g).addr = false)
    (hn : lineEnd c.addr - c.addr ≤ n + 1) : lineEnd (c.next g).addr - (c.next g).addr ≤ n := by
  rw [next_addr] at hs ⊢
  have hlt : c.addr < nextMultiple (2 ^ g) c.addr := lt_nextMultiple (Nat.two_pow_pos g)
  have hle : nextMultiple (2 ^ g) c.addr ≤ lineEnd c.addr :=
    nextMultiple_le_nextMultiple (grain_dvd hg) (by decide) c.addr
  have hne : nextMultiple (2 ^ g) c.addr ≠ lineEnd c.addr := fun h => by
    have hstart : isLineStart (lineEnd c.addr) = true := isLineStart_iff.2 (dvd_nextMultiple c.addr)
    rw [h, hstart] at hs
    cases hs
  have hsame : SameLine (nextMultiple (2 ^ g) c.addr) c.addr := sameLine_of_lt (by omega) (by omega)
  rw [lineEnd_eq hsame]
  omega

theorem rest_le (c : Chunk) : lineEnd c.addr - c.addr ≤ LINE_SIZE := by
  have := nextMultiple_le (g := 512) c.addr
  unfold lineEnd LINE_SIZE LG_LINE_SIZE
  omega

theorem getLgGrainsize_le (c : Chunk) : c.getLgGrainsize ≤ 9 := by
  unfold Chunk.getLgGrainsize LG_LINE_SIZE
  dsimp only
  split_ifs <;> omega

theorem coarser_le {g acc : Nat} (hacc : acc ≤ 9) :
    (if g < acc then g else acc) ≤ 9 := by split <;> omega

theorem ifMaterialized (m : Line β) :
    (if m.isMaterialized then m else m.materialize).isMaterialized = true := by
  split
  · next h => exact h
  · rfl

/-- What is stored after an operation: the line and the chunk that `Line` gives. -/
def Does (r : Option (PackedLine β × Chunk)) (r' : Line β × Chunk) : Prop :=
  ∃ l', r = some (l', r'.2) ∧ Rep l' r'.1

namespace Rep

theorem setLoop (setFn : Option β → β) {g : Nat} (hg : g ≤ 9) :
    ∀ (n : Nat) {l : PackedLine β} {m : Line β} (c : Chunk),
    Rep l m → m.isMaterialized = true → lineEnd c.addr - c.addr ≤ n →
    Does (setLoop setFn (getData l.dataPtr) g n l c) (Line.setLoop setFn g n m c) := by
  intro n
  induction n with
  | zero =>
    intro l m c _ _ hn
    have := lt_lineEnd (a := c.addr)
    omega
  | succ n ih =>
    intro l m c h hm hn
    obtain ⟨l₁, heq, hdata, h₁⟩ := h.store hm setFn c.addr
    have hm₁ : (m.store setFn (m.getIdx (byte c.addr))).isMaterialized = true := by
      simpa [Line.isMaterialized, Line.store] using hm
    unfold PackedLine.setLoop Line.setLoop
    simp only [h.getIdx, heq, Option.bind_some]
    split
    · exact ⟨l₁, rfl, h₁⟩
    · split
      · next hs =>
        rw [← hdata]
        exact ih _ h₁ hm₁ (rest_next hg (by simpa using hs) hn)
      · exact ⟨l₁, rfl, h₁⟩

theorem insertLoop {κ : Type v} [DecidableEq κ] (key : β → κ) (setFn : Option β → β)
    (previous : Option β) {g : Nat}
    (hg : g ≤ 9) : ∀ (n : Nat) {l : PackedLine β} {m : Line β} (c : Chunk),
    Rep l m → m.isMaterialized = true → lineEnd c.addr - c.addr ≤ n →
    Does (insertLoop key setFn (getData l.dataPtr) previous g n l c)
    (Line.insertLoop key setFn previous g n m c) := by
  intro n
  induction n with
  | zero =>
    intro l m c _ _ hn
    have := lt_lineEnd (a := c.addr)
    omega
  | succ n ih =>
    intro l m c h hm hn
    obtain ⟨l₁, heq, hdata, h₁⟩ := h.store hm setFn c.addr
    have hm₁ : (m.store setFn (m.getIdx (byte c.addr))).isMaterialized = true := by
      simpa [Line.isMaterialized, Line.store] using hm
    unfold PackedLine.insertLoop Line.insertLoop
    simp only [h.getIdx, heq, Option.bind_some]
    split
    · exact ⟨l₁, rfl, h₁⟩
    · split
      · exact ⟨l₁, rfl, h₁⟩
      · next hs =>
        rw [← hdata, h₁.getIdx, h₁.loadEntry hm₁ (getIdx_lt h₁.wf _), Option.bind_some]
        split
        · exact ih _ h₁ hm₁ (rest_next hg (by simpa using hs) hn)
        · exact ⟨l₁, rfl, h₁⟩

/-- One entry of `clear`; the array is there for the next one. -/
theorem clearEntry (h : Rep l m) (hm : m.isMaterialized = true) (g : Nat) (c : Chunk) :
    ∃ l' m' c', l.clearEntry (getData l.dataPtr) g c = some (l', c') ∧ Rep l' m' ∧
      (∀ n, Line.clearLoop g (n + 1) m c =
        if !c'.isEmpty && !isLineStart c'.addr then Line.clearLoop g n m' c' else (m', c')) ∧
      (isLineStart c'.addr = false →
        c' = c.next g ∧ m'.isMaterialized = true ∧ getData l'.dataPtr = getData l.dataPtr) := by
  unfold PackedLine.clearEntry
  dsimp only
  rw [h.getIdx, h.loadEntry hm (getIdx_lt h.wf _), Option.bind_some]
  cases hs : (m.entry (m.getIdx (byte c.addr))).isSome with
  | false =>
    exact ⟨l, m, c.next g, rfl, h, fun n => by simp [Line.clearLoop, hs], fun _ => ⟨rfl, hm, rfl⟩⟩
  | true =>
    obtain ⟨l₁, heq, hdata, h₁⟩ := h.invalidate hs
    have hm₁ : (m.invalidate (m.getIdx (byte c.addr))).isMaterialized = true := by
      simpa [Line.isMaterialized, Line.invalidate] using hm
    simp only [if_true, heq, Option.bind_some, h₁.noNonNullEls, h₁.lgGrainsize]
    cases he : (m.invalidate (m.getIdx (byte c.addr))).isEmpty with
    | false =>
      exact ⟨l₁, _, c.next g, rfl, h₁, fun n => by simp [Line.clearLoop, hs, he],
        fun _ => ⟨rfl, hm₁, hdata⟩⟩
    | true =>
      have hstart : isLineStart (c.next LG_LINE_SIZE).addr = true := by
        rw [next_addr]
        exact isLineStart_iff.2 (dvd_nextMultiple c.addr)
      by_cases hg : (m.invalidate (m.getIdx (byte c.addr))).lgGrainsize = LG_LINE_SIZE
      · refine ⟨l₁, _, c.next LG_LINE_SIZE, by simp [hg], h₁,
          fun n => by simp [Line.clearLoop, hs, he, hg], fun h => ?_⟩
        rw [hstart] at h
        cases h
      · obtain ⟨l₂, heq₂, h₂⟩ := h₁.reset
        refine ⟨l₂, _, c.next LG_LINE_SIZE, by simp [hg, heq₂], h₂,
          fun n => by simp [Line.clearLoop, hs, he, hg], fun h => ?_⟩
        rw [hstart] at h
        cases h

theorem clearLoop {g : Nat} (hg : g ≤ 9) : ∀ (n : Nat) {l : PackedLine β} {m : Line β} (c : Chunk),
    Rep l m → m.isMaterialized = true → lineEnd c.addr - c.addr ≤ n →
    Does (clearLoop (getData l.dataPtr) g n l c) (Line.clearLoop g n m c) := by
  intro n
  induction n with
  | zero =>
    intro l m c _ _ hn
    have := lt_lineEnd (a := c.addr)
    omega
  | succ n ih =>
    intro l m c h hm hn
    obtain ⟨l₁, m₁, c₁, heq, h₁, hloop, hgo⟩ := h.clearEntry hm g c
    unfold PackedLine.clearLoop
    rw [heq, Option.bind_some, hloop n]
    dsimp only
    split
    · next hs =>
      rw [Bool.and_eq_true, Bool.not_eq_true', Bool.not_eq_true'] at hs
      obtain ⟨hc, hm₁, hdata⟩ := hgo hs.2
      rw [← hdata]
      refine ih c₁ h₁ hm₁ ?_
      rw [hc] at hs ⊢
      exact rest_next hg hs.2 hn
    · exact ⟨l₁, rfl, h₁⟩

end Rep

/-! ## Operations on a line -/

namespace Rep

theorem set (h : Rep l m) (alloc : Allocator) (setFn : Option β → β) (c : Chunk) :
    Does (l.set alloc setFn c) (m.set setFn c) := by
  have hacc := getLgGrainsize_le c
  unfold PackedLine.set Line.set
  rw [h.lgGrainsize]
  dsimp only
  split
  · obtain ⟨l₁, heq₁, h₁⟩ :
        ∃ l₁, (if m.lgGrainsize ≠ LG_LINE_SIZE then l.reset else some l) = some l₁ ∧
        Rep l₁ (if m.lgGrainsize ≠ LG_LINE_SIZE then m.reset else m) := by
      split
      · exact h.reset
      · exact ⟨l, rfl, h⟩
    have h₂ := h₁.materialized alloc
    have hm₂ := ifMaterialized (if m.lgGrainsize ≠ LG_LINE_SIZE then m.reset else m)
    obtain ⟨l', heq', -, h'⟩ := h₂.store hm₂ setFn 0
    rw [show byte 0 = 0 from rfl, Line.getIdx, Nat.zero_div] at heq' h'
    rw [heq₁, Option.bind_some, heq', Option.map_some]
    exact ⟨l', rfl, h'⟩
  · obtain ⟨l₁, heq₁, h₁⟩ := h.refineTo alloc c.getLgGrainsize
    rw [heq₁, Option.bind_some]
    exact setLoop setFn (coarser_le hacc) _ c (h₁.materialized alloc) (ifMaterialized _) (rest_le c)

theorem insert {κ : Type v} [DecidableEq κ] (h : Rep l m) (alloc : Allocator) (key : β → κ)
    (setFn : Option β → β) (c : Chunk) :
    Does (l.insert alloc key setFn c (l.getIdx (byte c.addr)))
    (m.insert key setFn c (m.getIdx (byte c.addr))) := by
  have hacc := getLgGrainsize_le c
  have h₁ := h.materialized alloc
  have hm₁ := ifMaterialized m
  have hgrain : (if m.isMaterialized then m else m.materialize).lgGrainsize = m.lgGrainsize := by
    split <;> rfl
  unfold PackedLine.insert Line.insert
  rw [h.getIdx]
  dsimp only
  generalize hmat : (if m.isMaterialized then m else m.materialize) = m₁ at h₁ hm₁ hgrain ⊢
  rw [h₁.lgGrainsize]
  split
  · obtain ⟨l', heq', -, h'⟩ := h₁.store hm₁ setFn 0
    rw [show byte 0 = 0 from rfl, Line.getIdx, Nat.zero_div] at heq' h'
    rw [heq', Option.map_some]
    exact ⟨l', rfl, h'⟩
  · obtain ⟨l₂, heq₂, h₂⟩ := h₁.refineTo alloc c.getLgGrainsize
    have hm₂ : (m₁.refineTo c.getLgGrainsize).isMaterialized = true := by
      unfold Line.refineTo
      split
      · next hg => rw [(h₁.wf.refine hg).2.2.1, hm₁]
      · exact hm₁
    -- The index is one of the coarser line, and there are at least as many entries now.
    have hidx :
        m.getIdx (byte c.addr) < Line.numData (m₁.refineTo c.getLgGrainsize).lgGrainsize := by
      refine Nat.lt_of_lt_of_le (getIdx_lt h.wf c.addr) ?_
      rw [(h₁.wf.refineTo c.getLgGrainsize).2.1, hgrain]
      exact Nat.div_le_div_left (Nat.pow_le_pow_right (by decide) (Nat.min_le_left _ _))
        (Nat.two_pow_pos _)
    rw [heq₂, Option.bind_some]
    rw [h₂.loadEntry hm₂ hidx, Option.bind_some]
    exact insertLoop key setFn _ (coarser_le hacc) _ c h₂ hm₂ (rest_le c)

theorem clear (h : Rep l m) (alloc : Allocator) (c : Chunk) :
    Does (l.clear alloc c) (m.clear c) := by
  have hacc := getLgGrainsize_le c
  unfold PackedLine.clear Line.clear
  rw [h.lgGrainsize, h.noNonNullEls]
  dsimp only
  split
  · split
    · obtain ⟨l', heq', h'⟩ := h.reset
      rw [heq', Option.map_some]
      exact ⟨l', rfl, h'⟩
    · exact ⟨l, rfl, h⟩
  · obtain ⟨l₁, heq₁, h₁⟩ := h.refineTo alloc c.getLgGrainsize
    rw [heq₁, Option.bind_some, h₁.noNonNullEls]
    change Does _ (if (m.refineTo c.getLgGrainsize).isEmpty then _ else _)
    split
    · exact ⟨l₁, rfl, h₁⟩
    · next he =>
      have hm₁ : (m.refineTo c.getLgGrainsize).isMaterialized = true := by
        by_contra hn
        have hnone : (m.refineTo c.getLgGrainsize).data = none := by
          simpa [Line.isMaterialized] using hn
        have hzero := h₁.wf.count
        rw [hnone, Option.getD_none, List.countP_nil] at hzero
        exact he (by simp [Line.isEmpty, hzero])
      exact clearLoop (coarser_le hacc) _ c h₁ hm₁ (rest_le c)

theorem updateFast (h : Rep l m) (alloc : Allocator) (par : β → Bool) (setFn : Option β → β)
    (addr memSize : Nat) :
    ∃ l' m', l.updateFast alloc par setFn addr memSize = some l' ∧ Rep l' m' := by
  obtain ⟨l₁, heq₁, h₁⟩ := h.refineTo alloc (ctz memSize)
  unfold PackedLine.updateFast
  rw [heq₁, Option.bind_some]
  split
  · exact ⟨l₁, _, rfl, h₁⟩
  · have h₂ := h₁.materialized alloc
    have hm₂ := ifMaterialized (m.refineTo (ctz memSize))
    generalize (if (m.refineTo (ctz memSize)).isMaterialized then m.refineTo (ctz memSize)
      else (m.refineTo (ctz memSize)).materialize) = m₂ at h₂ hm₂
    dsimp only
    rw [h₂.getIdx, h₂.loadEntry hm₂ (getIdx_lt h₂.wf addr), Option.bind_some]
    by_cases hs : inSeries par (m₂.entry (m₂.getIdx (byte addr))) = true
    · rw [if_pos hs]
      obtain ⟨l', heq', -, h'⟩ := h₂.store hm₂ setFn addr
      exact ⟨l', _, heq', h'⟩
    · rw [if_neg hs]
      exact ⟨_, _, rfl, h₂⟩

end Rep

end PackedLine

/-! ## Runs -/

/-- The operations on a line. An insertion starts at the entry of its own
address, as `Update_iterator::insert` calls it. -/
inductive LineOp (β : Type u)
  | set (setFn : Option β → β) (accessed : Chunk)
  | insert (setFn : Option β → β) (accessed : Chunk)
  | refine (newLgGrainsize : Nat)
  | clear (accessed : Chunk)
  | reset
  | updateFast (par : β → Bool) (setFn : Option β → β) (addr memSize : Nat)

namespace LineOp

variable {β : Type u} {κ : Type v} [DecidableEq κ] (alloc : Allocator) (key : β → κ)

/-- What the code asserts before the operation. -/
def Asserted (l : PackedLine β) : LineOp β → Prop
  | refine newLgGrainsize => newLgGrainsize < getLgGrainsize l.dataPtr
  | _ => True

def apply (l : PackedLine β) : LineOp β → Option (PackedLine β)
  | set setFn accessed => (l.set alloc setFn accessed).map Prod.fst
  | insert setFn accessed =>
    (l.insert alloc key setFn accessed (l.getIdx (byte accessed.addr))).map Prod.fst
  | refine newLgGrainsize => l.refine alloc newLgGrainsize
  | clear accessed => (l.clear alloc accessed).map Prod.fst
  | reset => l.reset
  | updateFast par setFn addr memSize => l.updateFast alloc par setFn addr memSize

theorem rep_apply {l : PackedLine β} {m : Line β} (h : l.Rep m) (op : LineOp β)
    (ha : op.Asserted l) : ∃ l' m', op.apply alloc key l = some l' ∧ l'.Rep m' := by
  cases op with
  | set setFn c =>
    obtain ⟨l', heq, h'⟩ := h.set alloc setFn c
    exact ⟨l', _, by rw [apply, heq, Option.map_some], h'⟩
  | insert setFn c =>
    obtain ⟨l', heq, h'⟩ := h.insert alloc key setFn c
    exact ⟨l', _, by rw [apply, heq, Option.map_some], h'⟩
  | refine g =>
    have hg : g < m.lgGrainsize := by
      rw [← h.lgGrainsize]
      exact ha
    obtain ⟨l', heq, h'⟩ := h.refine alloc hg
    exact ⟨l', _, heq, h'⟩
  | clear c =>
    obtain ⟨l', heq, h'⟩ := h.clear alloc c
    exact ⟨l', _, by rw [apply, heq, Option.map_some], h'⟩
  | reset =>
    obtain ⟨l', heq, h'⟩ := h.reset
    exact ⟨l', _, heq, h'⟩
  | updateFast par setFn addr memSize => exact h.updateFast alloc par setFn addr memSize

end LineOp

namespace PackedLine

variable {β : Type u} {κ : Type v} [DecidableEq κ] (alloc : Allocator) (key : β → κ)

/-- The lines that operations make from a new one. -/
inductive Reached : PackedLine β → Prop
  | new {lgGrainsize : Nat} (h : lgGrainsize ≤ LG_LINE_SIZE) : Reached (new lgGrainsize)
  | step {l l' : PackedLine β} (op : LineOp β) (h : Reached l) (ha : op.Asserted l)
      (heq : op.apply alloc key l = some l') : Reached l'

/-- The three fields of the word are those of its array, and each was changed by
updates of its own only. -/
structure Consistent (l : PackedLine β) : Prop where
  grain : getLgGrainsize l.dataPtr ≤ 9
  count : getNumNonNullEls l.dataPtr = ((l.array.map Prod.snd).getD []).countP Option.isSome
  countLe : getNumNonNullEls l.dataPtr ≤ 512
  unmaterialized : isMaterialized l.dataPtr = false →
    l.array = none ∧ getNumNonNullEls l.dataPtr = 0
  array : isMaterialized l.dataPtr = true →
    ∃ ds, l.array = some (getData l.dataPtr, ds) ∧ ds.length = 512 / 2 ^ getLgGrainsize l.dataPtr
  kept : ∀ u ∈ l.updates, Kept u.1 u.2.1 u.2.2

variable {alloc key} {l : PackedLine β}

theorem Rep.consistent {m : Line β} (h : Rep l m) : l.Consistent := by
  have hcount : getNumNonNullEls l.dataPtr = m.numNonNullEls := h.packs.count_eq
  have hds : (l.array.map Prod.snd).getD [] = m.data.getD [] := by
    rw [h.array]
    cases m.data <;> rfl
  refine ⟨h.lgGrainsize ▸ h.wf.le, ?_, hcount ▸ count_le h.wf, fun hm => ?_, fun hm => ?_, h.kept⟩
  · rw [hcount, hds, h.wf.count]
  · have hnone : m.data = none := by
      rw [h.isMaterialized] at hm
      simpa [Line.isMaterialized] using hm
    rw [hcount, h.wf.count, h.array, hnone]
    exact ⟨rfl, rfl⟩
  · rw [h.isMaterialized] at hm
    obtain ⟨ds, hd⟩ := Option.isSome_iff_exists.1 hm
    refine ⟨ds, by rw [h.array, hd, Option.map_some], ?_⟩
    rw [h.lgGrainsize, h.wf.length ds hd]
    rfl

theorem Reached.rep (h : Reached alloc key l) : ∃ m, Rep l m := by
  induction h with
  | new hg => exact ⟨_, rep_new hg⟩
  | step op _ ha heq ih =>
    obtain ⟨m, hrep⟩ := ih
    obtain ⟨l'', m', heq', hrep'⟩ := LineOp.rep_apply alloc key hrep op ha
    rw [heq] at heq'
    cases heq'
    exact ⟨m', hrep'⟩

/-- **The word of a line is right** whatever is done to the line, and every
operation stays within the array. -/
theorem reached_consistent (h : Reached alloc key l) :
    l.Consistent ∧ ∀ op : LineOp β, op.Asserted l → ∃ l', op.apply alloc key l = some l' := by
  obtain ⟨m, hrep⟩ := h.rep
  refine ⟨hrep.consistent, fun op ha => ?_⟩
  obtain ⟨l', -, heq, -⟩ := LineOp.rep_apply alloc key hrep op ha
  exact ⟨l', heq⟩

theorem Reached.next (h : Reached alloc key l) (op : LineOp β) (ha : op.Asserted l) :
    Reached alloc key ((op.apply alloc key l).getD {}) := by
  obtain ⟨m, hrep⟩ := h.rep
  obtain ⟨l', -, heq, -⟩ := LineOp.rep_apply alloc key hrep op ha
  rw [heq]
  exact .step op h ha heq

/-- All arrays at one address. -/
def oneAddress : Allocator := ⟨fun _ => 4096#64, fun _ => by decide, fun _ => by decide⟩

/-- A line of which eight bytes are set, then made finer, then half of them cleared. -/
def eightLine : PackedLine Nat :=
  let l := ((LineOp.set (fun _ => 1) ⟨520, 8⟩).apply oneAddress id (new LG_LINE_SIZE)).getD {}
  let l := ((LineOp.refine 2).apply oneAddress id l).getD {}
  ((LineOp.clear ⟨524, 4⟩).apply oneAddress id l).getD {}

theorem reached_consistent_eight : eightLine.Consistent ∧ getNumNonNullEls eightLine.dataPtr = 1 ∧
    ∀ op : LineOp Nat, op.Asserted eightLine →
    ∃ l', op.apply oneAddress id eightLine = some l' := by
  have hnew : Reached oneAddress id (new LG_LINE_SIZE : PackedLine Nat) := .new (Nat.le_refl _)
  have hset := hnew.next (.set (fun _ => 1) ⟨520, 8⟩) trivial
  have hrefined := hset.next (.refine 2) (by unfold LineOp.Asserted; decide +kernel)
  obtain ⟨h₁, h₂⟩ := reached_consistent (hrefined.next (.clear ⟨524, 4⟩) trivial)
  exact ⟨h₁, by decide +kernel, h₂⟩

end PackedLine

end Cilksan
