/-
Reference counts: nodes that hold references to other nodes, each with a count
of the references to it, from nodes and from elsewhere. A node whose count
drops to zero goes, and what it held is released.
-/
import Mathlib.Algebra.BigOperators.Group.Finset.Basic
import Mathlib.Algebra.Order.BigOperators.Group.Finset

namespace RefCounts

variable {ι : Type u}

/-- The nodes that are live, their counts and the references they hold. -/
structure Heap (ι : Type u) where
  live : Finset ι
  count : ι → Int
  refs : ι → Multiset ι

/-- The references that live nodes hold. -/
def Heap.held (h : Heap ι) : Multiset ι := ∑ y ∈ h.live, h.refs y

/-- Every count is the number of references, those from elsewhere being `ext`;
the nodes with references are the live ones; and no node is below itself. -/
structure Balanced [DecidableEq ι] (h : Heap ι) (ext : Multiset ι) : Prop where
  count : ∀ x ∈ h.live, h.count x = (h.held + ext).count x
  live : ∀ x, x ∈ h.live ↔ x ∈ h.held + ext
  acyclic : ∃ rank : ι → Nat, ∀ y ∈ h.live, ∀ x ∈ h.refs y, rank x < rank y

variable [DecidableEq ι]

namespace Heap

variable (h : Heap ι) (x : ι)

/-- A reference more, or less. -/
def addRef (d : Int) : Heap ι := { h with count := Function.update h.count x (h.count x + d) }

def free : Heap ι := { h with live := h.live.erase x }

/-- A new node, which there is one reference to. -/
def alloc (r : Multiset ι) : Heap ι where
  live := insert x h.live
  count := Function.update h.count x 1
  refs := Function.update h.refs x r

def relink (r : Multiset ι) : Heap ι := { h with refs := Function.update h.refs x r }

variable {h x}

theorem held_free (hx : x ∈ h.live) : h.refs x + (h.free x).held = h.held :=
  Finset.add_sum_erase _ _ hx

theorem held_alloc (hx : x ∉ h.live) (r : Multiset ι) : (h.alloc x r).held = r + h.held := by
  have hself : (h.alloc x r).refs x = r := Function.update_self ..
  rw [held, show (h.alloc x r).live = insert x h.live from rfl, Finset.sum_insert hx, hself]
  refine congrArg (r + ·) (Finset.sum_congr rfl fun y hy => ?_)
  exact Function.update_of_ne (show y ≠ x from fun heq => hx (heq ▸ hy)) ..

theorem held_relink (hx : x ∈ h.live) (r : Multiset ι) :
    h.refs x + (h.relink x r).held = r + h.held := by
  have hrest : ((h.relink x r).free x).held = (h.free x).held :=
    Finset.sum_congr rfl fun y hy => Function.update_of_ne (Finset.mem_erase.1 hy).1 ..
  have hself : (h.relink x r).refs x = r := Function.update_self ..
  rw [← held_free (h := h.relink x r) (x := x) hx, hself, hrest, ← held_free hx, add_left_comm]

end Heap

namespace Balanced

variable {h h' : Heap ι} {ext r : Multiset ι} {x y : ι}

/-- Only what the live nodes have counts. -/
theorem congr (hb : Balanced h ext) (hlive : h'.live = h.live)
    (hcount : ∀ y ∈ h.live, h'.count y = h.count y)
    (hrefs : ∀ y ∈ h.live, h'.refs y = h.refs y) : Balanced h' ext := by
  have hheld : h'.held = h.held := by
    rw [Heap.held, Heap.held, hlive]
    exact Finset.sum_congr rfl hrefs
  obtain ⟨rank, hrank⟩ := hb.acyclic
  refine ⟨fun y hy => ?_, fun y => by rw [hheld, hlive, hb.live], rank, fun y hy z hz => ?_⟩
  · rw [hlive] at hy
    rw [hheld, hcount y hy, hb.count y hy]
  · rw [hlive] at hy
    rw [hrefs y hy] at hz
    exact hrank y hy z hz

theorem mem_live (hb : Balanced h ext) (hx : x ∈ ext) : x ∈ h.live :=
  (hb.live x).2 (Multiset.mem_add.2 (.inr hx))

theorem mem_live_of_refs (hb : Balanced h ext) (hy : y ∈ h.live) (hx : x ∈ h.refs y) : x ∈ h.live :=
  (hb.live x).2 (Multiset.mem_add.2 (.inl (Multiset.mem_sum.2 ⟨y, hy, hx⟩)))

theorem retain (hb : Balanced h ext) (hx : x ∈ h.live) : Balanced (h.addRef x 1) (x ::ₘ ext) := by
  refine ⟨fun z hz => ?_, fun z => ?_, hb.acyclic⟩
  · have hc := hb.count z hz
    show Function.update h.count x (h.count x + 1) z = ((h.held + x ::ₘ ext).count z : Int)
    rw [Multiset.add_cons, Multiset.count_cons, Function.update_apply]
    split
    · next heq =>
      subst heq
      rw [hc]
      push_cast
      rfl
    · rw [hc, Nat.add_zero]
  · show z ∈ h.live ↔ z ∈ h.held + x ::ₘ ext
    rw [Multiset.add_cons, Multiset.mem_cons, ← hb.live z]
    exact ⟨.inr, fun hz => hz.elim (fun heq => heq ▸ hx) id⟩

/-- A reference goes that is not the last. -/
theorem drop (hb : Balanced h (x ::ₘ ext)) (hc : h.count x ≠ 1) :
    Balanced (h.addRef x (-1)) ext := by
  have hx : x ∈ h.live := hb.mem_live (Multiset.mem_cons_self ..)
  have hcx := hb.count x hx
  have hlive := hb.live
  rw [Multiset.add_cons, Multiset.count_cons_self] at hcx
  have hmem : x ∈ h.held + ext := Multiset.count_pos.1 (by omega)
  refine ⟨fun z hz => ?_, fun z => ?_, hb.acyclic⟩
  · have hcz := hb.count z hz
    show Function.update h.count x (h.count x + -1) z = ((h.held + ext).count z : Int)
    rw [Multiset.add_cons, Multiset.count_cons] at hcz
    rw [Function.update_apply]
    split
    · next heq =>
      subst heq
      omega
    · next hne =>
      rw [if_neg hne] at hcz
      exact hcz
  · show z ∈ h.live ↔ z ∈ h.held + ext
    rw [hlive z, Multiset.add_cons, Multiset.mem_cons]
    exact ⟨fun hz => hz.elim (fun heq => heq ▸ hmem) id, .inr⟩

/-- The last reference goes: what the node held is released. -/
theorem free (hb : Balanced h (x ::ₘ ext)) (hc : h.count x = 1) :
    Balanced (h.free x) (h.refs x + ext) := by
  have hx : x ∈ h.live := hb.mem_live (Multiset.mem_cons_self ..)
  have htotal : h.held + x ::ₘ ext = x ::ₘ ((h.free x).held + (h.refs x + ext)) := by
    rw [Multiset.add_cons, ← Heap.held_free hx, add_assoc, add_left_comm]
  have hcx := hb.count x hx
  rw [htotal, Multiset.count_cons_self, hc] at hcx
  have hnot : x ∉ (h.free x).held + (h.refs x + ext) := Multiset.count_eq_zero.1 (by omega)
  obtain ⟨rank, hrank⟩ := hb.acyclic
  refine ⟨fun z hz => ?_, fun z => ?_, rank, fun z hz => hrank z (Finset.mem_of_mem_erase hz)⟩
  · obtain ⟨hne, hz⟩ := Finset.mem_erase.1 hz
    have hcz := hb.count z hz
    rwa [htotal, Multiset.count_cons_of_ne hne] at hcz
  · have hz := hb.live z
    rw [htotal, Multiset.mem_cons] at hz
    refine Finset.mem_erase.trans ⟨fun hzl => ?_, fun hzr => ?_⟩
    · exact (hz.1 hzl.2).resolve_left hzl.1
    · exact ⟨fun heq => hnot (heq ▸ hzr), hz.2 (.inr hzr)⟩

/-- The references a new node holds were held from elsewhere. -/
theorem alloc (hb : Balanced h (r + ext)) (hx : x ∉ h.live) :
    Balanced (h.alloc x r) (x ::ₘ ext) := by
  have htotal : (h.alloc x r).held + x ::ₘ ext = x ::ₘ (h.held + (r + ext)) := by
    rw [Heap.held_alloc hx, Multiset.add_cons, add_assoc, add_left_comm]
  have hnot : x ∉ h.held + (r + ext) := fun hmem => hx ((hb.live x).2 hmem)
  obtain ⟨rank, hrank⟩ := hb.acyclic
  refine ⟨fun z hz => ?_, fun z => ?_, Function.update rank x (∑ y ∈ h.live, rank y + 1),
    fun z hz y hy => ?_⟩
  · show Function.update h.count x 1 z = (((h.alloc x r).held + x ::ₘ ext).count z : Int)
    rw [htotal, Function.update_apply]
    split
    · next heq =>
      subst heq
      rw [Multiset.count_cons_self, Multiset.count_eq_zero.2 hnot]
      rfl
    · next hne =>
      rw [Multiset.count_cons_of_ne hne]
      exact hb.count z ((Finset.mem_insert.1 hz).resolve_left hne)
  · show z ∈ insert x h.live ↔ _
    rw [htotal, Multiset.mem_cons, Finset.mem_insert, hb.live z]
  · have hyl : y ∈ h.live := by
      by_cases hzx : z = x
      · subst hzx
        have hself : (h.alloc z r).refs z = r := Function.update_self ..
        rw [hself] at hy
        exact hb.mem_live (Multiset.mem_add.2 (.inl hy))
      · have hother : (h.alloc x r).refs z = h.refs z := Function.update_of_ne hzx ..
        rw [hother] at hy
        exact hb.mem_live_of_refs ((Finset.mem_insert.1 hz).resolve_left hzx) hy
    rw [Function.update_of_ne (show y ≠ x from fun heq => hx (heq ▸ hyl)), Function.update_apply]
    split
    · exact Nat.lt_succ_of_le (Finset.single_le_sum (fun _ _ => Nat.zero_le _) hyl)
    · next hzx =>
      have hother : (h.alloc x r).refs z = h.refs z := Function.update_of_ne hzx ..
      rw [hother] at hy
      exact hrank z ((Finset.mem_insert.1 hz).resolve_left hzx) y hy

/-- A node gives up what it held for other references. -/
theorem relink (hb : Balanced h (r + ext)) (hx : x ∈ h.live)
    (hacyclic : ∃ rank : ι → Nat, ∀ z ∈ h.live, ∀ y ∈ (h.relink x r).refs z, rank y < rank z) :
    Balanced (h.relink x r) (h.refs x + ext) := by
  have htotal : (h.relink x r).held + (h.refs x + ext) = h.held + (r + ext) := by
    rw [← add_assoc, add_comm _ (h.refs x), Heap.held_relink hx, add_comm r, add_assoc]
  exact ⟨fun z hz => by rw [htotal]; exact hb.count z hz,
    fun z => by rw [htotal]; exact hb.live z, hacyclic⟩

end Balanced

/-! ## References from elsewhere -/

section Owned

variable {κ : Type v} [DecidableEq κ] {objs : Finset κ} {g g' : κ → Multiset ι} {i : κ}

/-- The references that objects hold. -/
def owned (objs : Finset κ) (g : κ → Multiset ι) : Multiset ι := ∑ i ∈ objs, g i

omit [DecidableEq ι] [DecidableEq κ] in
theorem mem_owned {x : ι} (hi : i ∈ objs) (hx : x ∈ g i) : x ∈ owned objs g :=
  Multiset.mem_sum.2 ⟨i, hi, hx⟩

omit [DecidableEq ι] in
theorem owned_erase (hi : i ∈ objs) : g i + owned (objs.erase i) g = owned objs g :=
  Finset.add_sum_erase objs g hi

omit [DecidableEq ι] [DecidableEq κ] in
theorem owned_congr (h : ∀ k ∈ objs, g' k = g k) : owned objs g' = owned objs g :=
  Finset.sum_congr rfl h

omit [DecidableEq ι] in
/-- An object is there and holds `r`, whatever was there before. -/
theorem owned_insert (objs : Finset κ) (g : κ → Multiset ι) (i : κ) (r : Multiset ι) :
    owned (insert i objs) (Function.update g i r) = r + owned (objs.erase i) g := by
  rw [← owned_erase (Finset.mem_insert_self ..), Function.update_self, Finset.erase_insert_eq_erase]
  exact congrArg (r + ·)
    (owned_congr fun k hk => Function.update_of_ne (Finset.mem_erase.1 hk).1 ..)

end Owned

end RefCounts
