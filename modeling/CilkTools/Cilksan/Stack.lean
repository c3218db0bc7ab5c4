/-
`Stack_t` (`stack.h`) is a list while it has no more than 2^31 elements: with
one more, the capacity doubles from 2^31 to 2^32, which is 0 in its 32 bits.

An access outside the array is `none`. Assertions are compiled out.
-/
import Mathlib.Data.List.Induction
import Mathlib.Data.List.Infix
import Mathlib.Logic.Function.Basic
import Mathlib.Algebra.Order.Ring.Nat

namespace Cilksan

/-- `Stack_t`; `stack` is the array of `capacity` elements. -/
structure Stack (α : Type) where
  stack : Nat → α
  capacity : BitVec 32
  head : BitVec 32

namespace Stack

variable {α : Type}

def DEFAULT_CAPACITY : BitVec 32 := 128#32

/-- `stack[i]`. -/
def read (s : Stack α) (i : BitVec 32) : Option α :=
  if i < s.capacity then some (s.stack i.toNat) else none

/-- An assignment to `stack[i]`. -/
def write (s : Stack α) (i : BitVec 32) (val : α) : Option (Stack α) :=
  if i < s.capacity then some { s with stack := Function.update s.stack i.toNat val } else none

def back (s : Stack α) : Option α := s.read s.head
def fromBack (s : Stack α) (i : BitVec 32) : Option α := s.read (s.head - i)

/-- `ancestor` and `at` return pointers: the indices they point to. -/
def ancestor (s : Stack α) (i : BitVec 32) : BitVec 32 := s.head - i
def atIndex (_ : Stack α) (i : BitVec 32) : BitVec 32 := i
def headPtr (s : Stack α) : BitVec 32 := s.ancestor 0#32

def size (s : Stack α) : BitVec 32 := s.head + 1#32

section

variable [Inhabited α]

/-- The constructor. -/
def init : Stack α := ⟨fun _ => default, DEFAULT_CAPACITY, 0#32⟩

def resize (s : Stack α) (newCapacity : BitVec 32) : Stack α :=
  let copyEnd := if s.capacity > newCapacity then newCapacity else s.capacity
  { s with
    stack := fun i => if i < copyEnd.toNat then s.stack i else default
    capacity := newCapacity }

def doubleCap (s : Stack α) : Stack α := s.resize (s.capacity * 2#32)
def halveCap (s : Stack α) : Stack α := s.resize (s.capacity / 2#32)

def push (s : Stack α) : Stack α :=
  let s := { s with head := s.head + 1#32 }
  if s.head = s.capacity then s.doubleCap else s

def pushBack (s : Stack α) (val : α) : Option (Stack α) :=
  let s := s.push
  s.write s.head val

def pop (s : Stack α) : Stack α :=
  let s := { s with head := s.head - 1#32 }
  if s.capacity > DEFAULT_CAPACITY ∧ s.head < s.capacity / 2#32 then s.halveCap else s

end

/-! ## Operations -/

inductive Op (α : Type)
  | pushBack (val : α)
  | pop
  | setHead (val : α)
  | setAncestor (i : BitVec 32) (val : α)
  | setAt (i : BitVec 32) (val : α)
  deriving DecidableEq, Repr

def step [Inhabited α] (s : Stack α) : Op α → Option (Stack α)
  | .pushBack val => s.pushBack val
  | .pop => some s.pop
  | .setHead val => s.write s.headPtr val
  | .setAncestor i val => s.write (s.ancestor i) val
  | .setAt i val => s.write (s.atIndex i) val

def run [Inhabited α] (s : Stack α) (ops : List (Op α)) : Option (Stack α) := ops.foldlM step s

/-- The operation on a list, the oldest element first; `none` where the
program must not do it. -/
def Op.apply (xs : List α) : Op α → Option (List α)
  | pushBack val => some (xs ++ [val])
  | pop => if 1 < xs.length then some xs.dropLast else none
  | setHead val => some (xs.set (xs.length - 1) val)
  | setAncestor i val =>
    if i.toNat < xs.length then some (xs.set (xs.length - 1 - i.toNat) val) else none
  | setAt i val => if i.toNat < xs.length then some (xs.set i.toNat val) else none

def Op.applyAll (xs : List α) (ops : List (Op α)) : Option (List α) := ops.foldlM Op.apply xs

/-- The accessors return the elements of the list. -/
structure IsList (s : Stack α) (xs : List α) : Prop where
  size : s.size.toNat = xs.length
  back : s.back = xs.getLast?
  fromBack : ∀ i : BitVec 32, i.toNat < xs.length → s.fromBack i = xs.reverse[i.toNat]?
  ancestor : ∀ i : BitVec 32, i.toNat < xs.length → s.read (s.ancestor i) = xs.reverse[i.toNat]?
  atIndex : ∀ i : BitVec 32, i.toNat < xs.length → s.read (s.atIndex i) = xs[i.toNat]?

/-! ## The live elements -/

/-- The elements up to the head are those of the list, and the array has room
for them. -/
structure Live (s : Stack α) (xs : List α) : Prop where
  length : xs.length = s.head.toNat + 1
  lt : s.head.toNat < s.capacity.toNat
  capacity : ∃ k, s.capacity.toNat = 128 * 2 ^ k
  elem : ∀ i < xs.length, xs[i]? = some (s.stack i)

namespace Live

variable {s : Stack α} {xs : List α}

theorem capacity_le (h : Live s xs) :
    s.capacity.toNat ≤ 2 ^ 31 ∧ (s.capacity.toNat = 128 ∨ 256 ≤ s.capacity.toNat) ∧
    2 * (s.capacity.toNat / 2) = s.capacity.toNat := by
  obtain ⟨k, hk⟩ := h.capacity
  have hlt := s.capacity.isLt
  have hk' : k ≤ 24 := by
    by_contra hn
    have : 2 ^ 25 ≤ 2 ^ k := Nat.pow_le_pow_right (by decide) (by omega)
    omega
  have : 2 ^ k ≤ 2 ^ 24 := Nat.pow_le_pow_right (by decide) hk'
  cases k with
  | zero => simp at hk; omega
  | succ k =>
    have := Nat.two_pow_pos k
    rw [Nat.pow_succ] at *
    omega

theorem read_eq (h : Live s xs) {i : BitVec 32} (hi : i.toNat < xs.length) :
    s.read i = xs[i.toNat]? := by
  have := h.length
  have := h.lt
  rw [read, if_pos (by rw [BitVec.lt_def]; omega), h.elem i.toNat hi]

theorem toNat_ancestor (h : Live s xs) {i : BitVec 32} (hi : i.toNat < xs.length) :
    (s.ancestor i).toNat = xs.length - 1 - i.toNat := by
  have := h.length
  have := s.head.isLt
  rw [ancestor, BitVec.toNat_sub]
  omega

theorem isList (h : Live s xs) : IsList s xs := by
  have hlen := h.length
  have hle := h.capacity_le.1
  have hlt := h.lt
  have hanc : ∀ i : BitVec 32, i.toNat < xs.length →
      s.read (s.ancestor i) = xs.reverse[i.toNat]? := fun i hi => by
    have hidx := h.toNat_ancestor hi
    rw [h.read_eq (by omega), hidx, List.getElem?_reverse hi]
  refine ⟨?_, ?_, hanc, hanc, fun i hi => h.read_eq hi⟩
  · rw [size, BitVec.toNat_add, hlen]
    exact Nat.mod_eq_of_lt (by simp; omega)
  · rw [back, h.read_eq (by omega), List.getLast?_eq_getElem?, hlen, Nat.add_sub_cancel]

/-- An element is written over. -/
theorem write (h : Live s xs) {i : BitVec 32} (hi : i.toNat < xs.length) (val : α) :
    ∃ s', s.write i val = some s' ∧ Live s' (xs.set i.toNat val) := by
  have := h.length
  have := h.lt
  refine ⟨_, if_pos (by rw [BitVec.lt_def]; omega),
    ⟨by simpa using h.length, h.lt, h.capacity, fun j hj => ?_⟩⟩
  rw [List.length_set] at hj
  simp only [List.getElem?_set, Function.update_apply]
  by_cases hji : j = i.toNat
  · subst hji
    simp [hi]
  · rw [if_neg (Ne.symm hji), if_neg hji, h.elem j hj]

theorem ne_nil (h : Live s xs) : xs ≠ [] := fun he => by
  have := h.length
  rw [he] at this
  cases this

/-- Elements counted from the head. -/
theorem read_ancestor (h : Live s xs.reverse) {i : BitVec 32} (hi : i.toNat < xs.length) :
    s.read (s.ancestor i) = xs[i.toNat]? := by
  have hidx := h.toNat_ancestor (i := i) (by simpa using hi)
  rw [List.length_reverse] at hidx
  rw [h.read_eq (by simp; omega), hidx, List.getElem?_reverse (by omega)]
  exact congrArg (xs[·]?) (by omega)

theorem write_ancestor (h : Live s xs.reverse) {i : BitVec 32}
    (hi : i.toNat < xs.length) (val : α) :
    ∃ s', s.write (s.ancestor i) val = some s' ∧ Live s' (xs.set i.toNat val).reverse ∧
    s'.head = s.head ∧
      ∀ j, s.head.toNat < j → s'.stack j = s.stack j := by
  have hlen := h.length
  have hidx := h.toNat_ancestor (i := i) (by simpa using hi)
  rw [List.length_reverse] at hlen hidx
  obtain ⟨s', hs', hlive⟩ := h.write (i := s.ancestor i) (by simp; omega) val
  refine ⟨s', hs', ?_, ?_, fun j hj => ?_⟩
  · have hset : xs.reverse.set (s.ancestor i).toNat val = (xs.set i.toNat val).reverse := by
      rw [hidx]
      refine List.ext_getElem? fun k => ?_
      by_cases hk : k < xs.length
      · rw [List.getElem?_reverse (by simpa using hk), List.getElem?_set, List.getElem?_set,
          List.length_set, List.getElem?_reverse hk, List.length_reverse]
        by_cases hki : xs.length - 1 - i.toNat = k
        · rw [if_pos hki, if_pos (by omega), if_pos (by omega), if_pos hi]
        · rw [if_neg hki, if_neg (by omega)]
      · rw [List.getElem?_eq_none (by simpa using Nat.not_lt.1 hk),
          List.getElem?_eq_none (by simpa using Nat.not_lt.1 hk)]
    rwa [hset] at hlive
  all_goals
    rw [Stack.write] at hs'
    split at hs'
    · cases hs'
      first | rfl | exact Function.update_of_ne (by omega) ..
    · cases hs'

end Live

variable [Inhabited α] {s : Stack α} {xs : List α}

/-- An element of the new array is one of the old, or a default one. -/
theorem resize_stack_or (s : Stack α) (newCapacity : BitVec 32) (i : Nat) :
    (s.resize newCapacity).stack i = s.stack i ∨ (s.resize newCapacity).stack i = default :=
  ite_eq_or_eq ..

theorem push_stack_or (s : Stack α) (i : Nat) :
    s.push.stack i = s.stack i ∨ s.push.stack i = default := by
  rw [push]
  simp only
  split
  · exact resize_stack_or ..
  · exact .inl rfl

theorem pop_stack_or (s : Stack α) (i : Nat) :
    s.pop.stack i = s.stack i ∨ s.pop.stack i = default := by
  rw [pop]
  simp only
  split
  · exact resize_stack_or ..
  · exact .inl rfl

/-- What both arrays have room for is moved. -/
theorem resize_stack {newCapacity : BitVec 32} {i : Nat} (hold : i < s.capacity.toNat)
    (hnew : i < newCapacity.toNat) : (s.resize newCapacity).stack i = s.stack i := by
  have hcopied : i < (if s.capacity > newCapacity then newCapacity else s.capacity).toNat := by
    split <;> assumption
  simp only [resize, if_pos hcopied]

/-- One more element becomes live: what is in the array there, or, in a new
array, a default one. -/
theorem Live.push (h : Live s xs) (hroom : xs.length < 2 ^ 31) :
    ∃ val, Live s.push (xs ++ [val]) := by
  have hlen := h.length
  have hlt := h.lt
  obtain ⟨k, hk⟩ := h.capacity
  have hhead : (s.head + 1#32).toNat = s.head.toNat + 1 := by
    rw [BitVec.toNat_add]
    exact Nat.mod_eq_of_lt (by simp; omega)
  have happend : ∀ (t : Stack α), t.head.toNat = s.head.toNat + 1 →
      (∀ i < xs.length, t.stack i = s.stack i) →
      ∀ i < (xs ++ [t.stack t.head.toNat]).length, (xs ++ [t.stack t.head.toNat])[i]? =
      some (t.stack i) :=
    fun t hhead' hsame i hi => by
      by_cases hix : i < xs.length
      · rw [List.getElem?_append_left hix, h.elem i hix, hsame i hix]
      · rw [List.length_append, List.length_singleton] at hi
        have hlast : i = xs.length := by omega
        subst hlast
        rw [List.getElem?_concat_length, hhead', ← hlen]
  by_cases hfull : s.head + 1#32 = s.capacity
  · have hpush : s.push = { s with head := s.head + 1#32 }.doubleCap := by
      rw [Stack.push]
      exact if_pos hfull
    have hcap : s.capacity.toNat = s.head.toNat + 1 := by rw [← hfull, hhead]
    have hdouble : (s.capacity * 2#32).toNat = 2 * s.capacity.toNat := by
      rw [BitVec.toNat_mul, Nat.mod_eq_of_lt (by simp; omega)]
      simp [Nat.mul_comm]
    rw [hpush]
    refine ⟨_, by simp [doubleCap, resize, hhead, hlen], ?_, ⟨k + 1, ?_⟩,
      happend _ hhead fun i hi => ?_⟩
    · show (s.head + 1#32).toNat < (s.capacity * 2#32).toNat
      omega
    · show (s.capacity * 2#32).toNat = _
      rw [hdouble, hk, Nat.pow_succ]
      omega
    · exact resize_stack (s := { s with head := s.head + 1#32 }) (by simp only; omega)
        (by show i < (s.capacity * 2#32).toNat; omega)
  · have hpush : s.push = { s with head := s.head + 1#32 } := by
      rw [Stack.push]
      exact if_neg hfull
    have hne : s.capacity.toNat ≠ s.head.toNat + 1 :=
      fun heq => hfull (BitVec.eq_of_toNat_eq (by rw [hhead, heq]))
    rw [hpush]
    exact ⟨_, by simp [hhead, hlen], by simp only [hhead]; omega, ⟨k, hk⟩,
      happend _ hhead fun _ _ => rfl⟩

/-- From 2^31 elements on, the capacity of the new array is 0. -/
theorem Live.push_full (h : Live s xs) (hfull : xs.length = 2 ^ 31) : s.push.capacity = 0#32 := by
  have hlen := h.length
  have hlt := h.lt
  have hle := h.capacity_le.1
  have hcap : s.capacity.toNat = 2 ^ 31 := by omega
  have hhead : s.head + 1#32 = s.capacity := by
    refine BitVec.eq_of_toNat_eq ?_
    rw [BitVec.toNat_add, Nat.mod_eq_of_lt (by simp; omega)]
    simp
    omega
  rw [Stack.push]
  simp only [if_pos hhead]
  refine BitVec.eq_of_toNat_eq ?_
  simp only [doubleCap, resize, BitVec.toNat_mul]
  rw [hcap]
  rfl

theorem Live.pop (h : Live s xs) (hlen : 1 < xs.length) : Live s.pop xs.dropLast := by
  have hlength := h.length
  have hlt := h.lt
  obtain ⟨k, hk⟩ := h.capacity
  obtain ⟨hle, hsize, heven⟩ := h.capacity_le
  have hhead : (s.head - 1#32).toNat = s.head.toNat - 1 := by
    rw [BitVec.toNat_sub]
    simp
    omega
  have hhalf : (s.capacity / 2#32).toNat = s.capacity.toNat / 2 := by simp
  have helem : ∀ i < xs.dropLast.length, xs.dropLast[i]? = some (s.stack i) := fun i hi => by
    rw [List.length_dropLast] at hi
    rw [List.dropLast_eq_take, List.getElem?_take_of_lt hi, h.elem i (by omega)]
  by_cases hshrink : s.capacity > DEFAULT_CAPACITY ∧ s.head - 1#32 < s.capacity / 2#32
  · have hpop : s.pop = { s with head := s.head - 1#32 }.halveCap := by
      rw [Stack.pop]
      exact if_pos hshrink
    have hnew := hshrink.2
    rw [BitVec.lt_def, hhead, hhalf] at hnew
    have hbig : 128 < s.capacity.toNat := hshrink.1
    rw [hpop]
    refine ⟨?_, ?_, ?_, fun i hi => ?_⟩
    · show _ = (s.head - 1#32).toNat + 1
      rw [List.length_dropLast, hhead]
      omega
    · show (s.head - 1#32).toNat < (s.capacity / 2#32).toNat
      omega
    · cases k with
      | zero => simp at hk; omega
      | succ k =>
        refine ⟨k, ?_⟩
        show (s.capacity / 2#32).toNat = _
        rw [hhalf, hk, Nat.pow_succ]
        omega
    · have hi' := hi
      rw [List.length_dropLast] at hi'
      rw [helem i hi]
      exact congrArg some (resize_stack (s := { s with head := s.head - 1#32 })
        (by simp only; omega) (by show i < (s.capacity / 2#32).toNat; omega)).symm
  · have hpop : s.pop = { s with head := s.head - 1#32 } := by
      rw [Stack.pop]
      exact if_neg hshrink
    rw [hpop]
    exact ⟨by simp only [List.length_dropLast, hhead]; omega, by simp only [hhead]; omega,
      ⟨k, hk⟩, helem⟩

/-! ## Runs -/

/-- A program operation on a list of no more than 2^31 elements is one on the
array, and with one more it goes outside the array. -/
theorem Live.step (h : Live s xs) {op : Op α} {ys : List α} (ho : op.apply xs = some ys) :
    if ys.length ≤ 2 ^ 31 then ∃ s', s.step op = some s' ∧ Live s' ys else s.step op = none := by
  have hle : xs.length ≤ 2 ^ 31 := by
    have := h.length
    have := h.lt
    have := h.capacity_le.1
    omega
  have hpos : 0 < xs.length := by rw [h.length]; exact Nat.succ_pos _
  cases op with
  | pushBack val =>
    cases ho
    rw [List.length_append, List.length_singleton]
    split
    · next hroom =>
      obtain ⟨junk, hlive⟩ := h.push hroom
      have hlast : s.push.head.toNat = xs.length := by
        have := hlive.length
        rw [List.length_append, List.length_singleton] at this
        omega
      obtain ⟨s', hs', hlive'⟩ := hlive.write (i := s.push.head) (by simp [hlast]) val
      rw [hlast, List.set_append_right _ _ (Nat.le_refl _), Nat.sub_self] at hlive'
      exact ⟨s', hs', hlive'⟩
    · next hfull =>
      have hcap := h.push_full (by omega)
      show s.push.write s.push.head val = none
      rw [Stack.write, hcap]
      exact if_neg (by simp)
  | pop =>
    simp only [Op.apply] at ho
    split at ho
    · next hlen =>
      cases ho
      rw [if_pos (by rw [List.length_dropLast]; omega)]
      exact ⟨_, rfl, h.pop hlen⟩
    · cases ho
  | setHead val =>
    cases ho
    rw [if_pos (by rwa [List.length_set])]
    have hidx := h.toNat_ancestor (i := 0#32) hpos
    obtain ⟨s', hs', hlive⟩ := h.write (i := s.headPtr) (by rw [headPtr, hidx]; omega) val
    refine ⟨s', hs', ?_⟩
    rw [headPtr, hidx] at hlive
    exact hlive
  | setAncestor i val =>
    simp only [Op.apply] at ho
    split at ho
    · next hi =>
      cases ho
      rw [if_pos (by rwa [List.length_set])]
      have hidx := h.toNat_ancestor hi
      obtain ⟨s', hs', hlive⟩ := h.write (i := s.ancestor i) (by rw [hidx]; omega) val
      rw [hidx] at hlive
      exact ⟨s', hs', hlive⟩
    · cases ho
  | setAt i val =>
    simp only [Op.apply] at ho
    split at ho
    · next hi =>
      cases ho
      rw [if_pos (by rwa [List.length_set])]
      exact h.write hi val
    · cases ho

theorem Live.init : Live (init : Stack α) [default] where
  length := rfl
  lt := show (0#32).toNat < (128#32).toNat by decide
  capacity := ⟨0, rfl⟩
  elem i hi := by
    obtain rfl : i = 0 := by simpa using hi
    rfl

/-- The list never has more elements than the capacity has room for. -/
def StaysSmall (ops : List (Op α)) : Prop :=
  ∀ pre, pre <+: ops → ∀ ys, Op.applyAll [default] pre = some ys → ys.length ≤ 2 ^ 31

omit [Inhabited α] in
theorem Op.applyAll_concat (xs : List α) (ops : List (Op α)) (op : Op α) :
    applyAll xs (ops ++ [op]) = (applyAll xs ops).bind fun ys => op.apply ys := by
  simp [applyAll, List.foldlM_append]

theorem run_concat (s : Stack α) (ops : List (Op α)) (op : Op α) :
    s.run (ops ++ [op]) = (s.run ops).bind fun t => t.step op := by
  simp [run, List.foldlM_append]

theorem run_live (ops : List (Op α)) {xs : List α} (ho : Op.applyAll [default] ops = some xs) :
    (StaysSmall ops ∧ ∃ s, (init : Stack α).run ops = some s ∧ Live s xs) ∨
      (¬ StaysSmall ops ∧ (init : Stack α).run ops = none) := by
  induction ops using List.reverseRecOn generalizing xs with
  | nil =>
    cases ho
    refine .inl ⟨fun pre hp ys hys => ?_, _, rfl, .init⟩
    rw [List.prefix_nil.1 hp] at hys
    cases hys
    exact Nat.one_le_two_pow
  | append_singleton ops op ih =>
    rw [Op.applyAll_concat, Option.bind_eq_some_iff] at ho
    obtain ⟨ys, hys, hop⟩ := ho
    rcases ih hys with ⟨hsmall, s, hrun, hlive⟩ | ⟨hbig, hrun⟩
    · have hstep := hlive.step hop
      rw [run_concat, hrun, Option.bind_some]
      split at hstep
      · next hle =>
        refine .inl ⟨fun pre hp zs hzs => ?_, hstep⟩
        rcases List.prefix_concat_iff.1 hp with rfl | hp
        · rw [Op.applyAll_concat, hys, Option.bind_some, hop] at hzs
          cases hzs
          exact hle
        · exact hsmall pre hp zs hzs
      · next hgt =>
        refine .inr ⟨fun h => hgt (h _ (List.prefix_refl _) xs ?_), hstep⟩
        rw [Op.applyAll_concat, hys, Option.bind_some, hop]
    · refine .inr ⟨fun h => hbig fun pre hp => h pre (hp.trans (List.prefix_append ops [op])), ?_⟩
      rw [run_concat, hrun]
      rfl

/-- **A list.** After any operations the program may do, no access went
outside the array and the accessors return the elements of the list, just when
the list had no more than 2^31 elements at any time. -/
theorem isList_iff (ops : List (Op α)) {xs : List α} (ho : Op.applyAll [default] ops = some xs) :
    (∃ s, (init : Stack α).run ops = some s ∧ IsList s xs) ↔ StaysSmall ops := by
  rcases run_live ops ho with ⟨hsmall, s, hrun, hlive⟩ | ⟨hbig, hrun⟩
  · exact iff_of_true ⟨s, hrun, hlive.isList⟩ hsmall
  · refine iff_of_false (fun h => ?_) hbig
    obtain ⟨s, hs, -⟩ := h
    rw [hrun] at hs
    cases hs

omit [Inhabited α] in
theorem Op.length_apply_le {xs ys : List α} {op : Op α} (ho : op.apply xs = some ys) :
    ys.length ≤ xs.length + 1 := by
  cases op <;> simp only [Op.apply] at ho
  case pushBack => cases ho; simp
  case setHead => cases ho; simp
  all_goals
    split at ho <;> cases ho
    simp
  omega

omit [Inhabited α] in
theorem Op.length_applyAll_le (ops : List (Op α)) {xs ys : List α}
    (ho : applyAll xs ops = some ys) : ys.length ≤ xs.length + ops.length := by
  induction ops using List.reverseRecOn generalizing ys with
  | nil =>
    cases ho
    exact Nat.le_refl _
  | append_singleton ops op ih =>
    rw [applyAll_concat, Option.bind_eq_some_iff] at ho
    obtain ⟨zs, hzs, hop⟩ := ho
    have := ih hzs
    have := length_apply_le hop
    rw [List.length_append, List.length_singleton]
    omega

/-- Fewer than 2^31 operations cannot make the list too long. -/
theorem StaysSmall.of_length {ops : List (Op α)} (h : ops.length < 2 ^ 31) : StaysSmall ops := by
  intro pre hp ys hys
  have hys := Op.length_applyAll_le pre hys
  have hlen := hp.length_le
  rw [List.length_singleton] at hys
  omega

theorem isList_iff_written :
    ∃ s, (init : Stack Nat).run [.pushBack 5, .setAncestor 1#32 7, .pushBack 6, .pop] = some s ∧
    IsList s [7, 5] :=
  (isList_iff [.pushBack 5, .setAncestor 1#32 7, .pushBack 6, .pop] rfl).2 (.of_length (by decide))

omit [Inhabited α] in
theorem Op.applyAll_pushBack (xs : List α) (val : α) (n : Nat) :
    applyAll xs (List.replicate n (.pushBack val)) = some (xs ++ List.replicate n val) := by
  induction n generalizing xs with
  | zero => simp [applyAll]
  | succ n ih =>
    rw [List.replicate_succ, applyAll, List.foldlM_cons]
    show applyAll (xs ++ [val]) (List.replicate n (.pushBack val)) = _
    rw [ih, List.append_assoc]
    rfl

/-- A list that the array cannot hold. -/
theorem not_isList_deep :
    Op.applyAll [default] (List.replicate (2 ^ 31) (.pushBack 0)) =
    some ([0] ++ List.replicate (2 ^ 31) 0) ∧
      ¬ ∃ s, (init : Stack Nat).run (List.replicate (2 ^ 31) (.pushBack 0)) = some s ∧
        IsList s ([0] ++ List.replicate (2 ^ 31) 0) := by
  have ho := Op.applyAll_pushBack [(0 : Nat)] 0 (2 ^ 31)
  refine ⟨ho, fun h => ?_⟩
  obtain ⟨s, hs, -⟩ := h
  rcases run_live _ ho with ⟨hsmall, -⟩ | ⟨-, hrun⟩
  · have := hsmall _ (List.prefix_refl _) _ ho
    rw [List.length_append, List.length_replicate, List.length_singleton] at this
    omega
  · rw [hrun] at hs
    cases hs

end Stack

end Cilksan
