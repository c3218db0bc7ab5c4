/-
Merging the reducer views of a child into those of its parent
(`merge_two_hyper_tables`, `reducers.cpp`).

The smaller table is scanned, and each of its keys is looked for in the other.
Whichever is scanned, the left view of a key is the one that stays.
-/
import CilkTools.Cilksan.HyperTableRuns

namespace Cilksan

/-- `reducer_base`: a view and the function that reduces another into it. -/
structure ReducerBase where
  view : Key
  reduceFn : Nat
  deriving DecidableEq, Repr, Inhabited

/-- What happens to the views. -/
inductive ViewEvent
  | reduce (fn : Nat) (left right : Key)
  | free (view : Key)
  | markFree (view : Key)
  deriving DecidableEq, Repr

/-- A view is reduced into the one on its left, and freed. -/
def reduceInto (fn : Nat) (left right : Key) : List ViewEvent :=
  [.reduce fn left right, .free right, .markFree right]

namespace HyperTable

variable {V : Type}

/-- The buckets that are scanned. -/
def scanned (src : HyperTable V) : List (Bucket V) :=
  (List.range (if src.capacity < MIN_HT_CAPACITY then src.occupancy
    else src.capacity)).map src.buckets

def setValue (t : HyperTable V) (i : Nat) (v : V) : HyperTable V :=
  { t with buckets := Function.update t.buckets i { t.buckets i with value := v } }

end HyperTable

open HyperTable

/-- The destination, and what happened to the views so far. -/
structure MergeState where
  dst : HyperTable ReducerBase
  events : List ViewEvent := []

/-- The body of the loop. -/
def mergeStep (hash : Key → Nat) (leftDst : Bool) (s : MergeState) (b : Bucket ReducerBase) :
    Option MergeState :=
  if !isValid b.key then some s
  else
    match s.dst.find hash b.key with
    | none => (s.dst.insert hash b).map fun r => { s with dst := r.2 }
    | some i =>
      let dstRb := (s.dst.buckets i).value
      if leftDst then
        some { s with events := s.events ++ reduceInto dstRb.reduceFn dstRb.view b.value.view }
      else some {
        dst := s.dst.setValue i { dstRb with view := b.value.view }
        events := s.events ++ reduceInto dstRb.reduceFn b.value.view dstRb.view }

def mergeInto (hash : Key → Nat) (leftDst : Bool) (left right : HyperTable ReducerBase) :
    Option MergeState :=
  let src := if leftDst then right else left
  let dst := if leftDst then left else right
  src.scanned.foldlM (mergeStep hash leftDst) { dst }

inductive TableSide
  | left
  | right
  deriving DecidableEq, Repr

/-- The table returned, and which of the two was deleted. -/
structure Merged where
  table : Option (HyperTable ReducerBase)
  events : List ViewEvent := []
  deleted : Option TableSide := none

def mergeTwoHyperTables (hash : Key → Nat) :
    Option (HyperTable ReducerBase) → Option (HyperTable ReducerBase) → Option Merged
  | none, right => some { table := right }
  | some left, none => some { table := some left }
  | some left, some right =>
    if left.occupancy = 0 then some { table := some right, deleted := some .left }
    else if right.occupancy = 0 then some { table := some left, deleted := some .right }
    else
      let leftDst : Bool := left.occupancy ≥ right.occupancy
      (mergeInto hash leftDst left right).map fun s =>
        { table := some s.dst, events := s.events,
          deleted := some (if leftDst then .right else .left) }

/-! ## What a merge should do -/

/-- A table stands for a map, no table for the empty one. -/
def Stands (hash : Key → Nat) (t : Option (HyperTable ReducerBase))
    (m : Key → Option ReducerBase) : Prop :=
  match t with
  | some t => Holds hash t m
  | none => ∀ k, isValid k = true → m k = none

/-- The entry of a key: the left view, with the function of the destination. -/
def mergedEntry (leftDst : Bool) : Option ReducerBase → Option ReducerBase → Option ReducerBase
  | some l, some r =>
    some { view := l.view, reduceFn := if leftDst then l.reduceFn else r.reduceFn }
  | some l, none => some l
  | none, r => r

/-- What happens to the views of a key: of a shared one, the right view is
reduced into the left one and freed. -/
def keyEvents (leftDst : Bool) (ml mr : Key → Option ReducerBase) (k : Key) : List ViewEvent :=
  match ml k, mr k with
  | some l, some r => reduceInto (if leftDst then l.reduceFn else r.reduceFn) l.view r.view
  | _, _ => []

/-- An ordered union: the left view of every key that has one, else the right
view; each shared key's views are reduced once, and nothing else happens. -/
structure OrderedUnion (hash : Key → Nat) (leftDst : Bool) (ml mr : Key → Option ReducerBase)
    (t : Option (HyperTable ReducerBase)) (events : List ViewEvent) : Prop where
  views : ∃ m, Stands hash t m ∧ ∀ k, isValid k = true →
    m k = mergedEntry leftDst (ml k) (mr k) ∧ (m k).map (·.view) = ((ml k).or (mr k)).map (·.view)
  effects : ∃ keys : List Key, keys.Nodup ∧
    (∀ k, k ∈ keys ↔ isValid k = true ∧ (ml k).isSome = true ∧ (mr k).isSome = true) ∧
    events = keys.flatMap (keyEvents leftDst ml mr)

/-- `find` and `insert` are lookup and update, of this table and bucket. -/
structure ActsAsMap {V : Type} [Inhabited V] (hash : Key → Nat) (t : HyperTable V)
    (b : Bucket V) : Prop where
  find : (∃ i < t.capacity, t.find hash b.key = some i ∧ (t.buckets i).key = b.key) ∨
    t.find hash b.key = none ∧ Absent t.capacity t.buckets b.key
  insert : Absent t.capacity t.buckets b.key →
    ∃ r t', t.insert hash b = some (r, t') ∧ Good hash t' ∧
    Puts b (Has t.capacity t.buckets) (Has t'.capacity t'.buckets)

/-- They are so all through the merge. -/
def MergesAsMap (hash : Key → Nat) (leftDst : Bool) (left right : HyperTable ReducerBase) : Prop :=
  ∀ pre b s, pre ++ [b] <+: (if leftDst then right else left).scanned → isValid b.key = true →
    pre.foldlM (mergeStep hash leftDst) { dst := if leftDst then left else right } = some s →
    ActsAsMap hash s.dst b

/-- No insertion of the merge carries a bucket round the destination, or finds
that too large. -/
def InsertsOk (hash : Key → Nat) (leftDst : Bool) : MergeState → List (Bucket ReducerBase) → Prop
  | _, [] => True
  | s, b :: bs =>
    (isValid b.key = true →
      s.dst.capacity < 2 ^ 27 ∧ (s.dst.find hash b.key = none → InsertOk hash s.dst b.key)) ∧
    ∀ s' ∈ mergeStep hash leftDst s b, InsertsOk hash leftDst s' bs

instance decidableInsertsOk (hash : Key → Nat) (leftDst : Bool) (s : MergeState) :
    (bs : List (Bucket ReducerBase)) → Decidable (InsertsOk hash leftDst s bs)
  | [] => inferInstanceAs (Decidable True)
  | b :: bs =>
    have := fun s' => decidableInsertsOk hash leftDst s' bs
    inferInstanceAs (Decidable ((isValid b.key = true →
      s.dst.capacity < 2 ^ 27 ∧ (s.dst.find hash b.key = none → InsertOk hash s.dst b.key)) ∧
      ∀ s' ∈ mergeStep hash leftDst s b, InsertsOk hash leftDst s' bs))

/-! ## The tables -/

namespace HyperTable

variable {V : Type} {hash : Key → Nat} {t : HyperTable V}

theorem Good.setValue (hg : Good hash t) {i : Nat} (hi : i < t.capacity)
    (hv : isValid (t.buckets i).key = true) (v : V) : Good hash (t.setValue i v) ∧
      Puts { t.buckets i with value := v } (Has t.capacity t.buckets)
      (Has t.capacity (t.setValue i v).buckets) := by
  have hkey : ∀ j, ((t.setValue i v).buckets j).key = (t.buckets j).key := fun j => by
    by_cases h : j = i
    · subst h
      simp [HyperTable.setValue]
    · simp [HyperTable.setValue, h]
  have hhash : ∀ j, ((t.setValue i v).buckets j).hash = (t.buckets j).hash := fun j => by
    by_cases h : j = i
    · subst h
      simp [HyperTable.setValue]
    · simp [HyperTable.setValue, h]
  have hslots : slots (t.setValue i v).buckets = slots t.buckets := by
    funext j
    simp only [slots, slot, hkey, hhash]
  have hcount :
      count isValid t.capacity (t.setValue i v).buckets = count isValid t.capacity t.buckets := by
    simp only [count, hkey]
  refine ⟨⟨hg.capacity, hcount.trans hg.occupied, fun j hj k hk => ?_, fun hs j hj => ?_,
      fun h8 => ⟨?_, fun j hj => ?_,
    fun j hj k hk => ?_⟩, hg.load⟩, fun k w hk => ?_⟩
  · rw [hkey, hkey]
    exact hg.distinct j hj k hk
  · rw [hkey]
    exact hg.small hs j hj
  · rw [hslots]
    exact (hg.hashed h8).sorted
  · rw [hkey, hhash]
    exact (hg.hashed h8).home j hj
  · rw [hkey, hkey]
    exact hg.distinct j hj k hk
  · have hother : ∀ j, j ≠ i → (t.setValue i v).buckets j = t.buckets j := fun j hj => by
      simp [HyperTable.setValue, hj]
    have hself : ((t.setValue i v).buckets i).value = v := by simp [HyperTable.setValue]
    split
    · next hki =>
      have hki' : k = (t.buckets i).key := hki
      constructor
      · intro h
        obtain ⟨j, hj, hjk, hjw⟩ := h
        rw [hkey, hki'] at hjk
        have hji := hg.distinct i hi j hj hv hjk.symm
        subst hji
        exact hjw.symm.trans hself
      · intro h
        have hw : w = v := h
        exact ⟨i, hi, by rw [hkey, hki'], by rw [hself, hw]⟩
    · next hki =>
      have hne : (t.buckets i).key ≠ k := fun h => hki h.symm
      constructor
      · intro h
        obtain ⟨j, hj, hjk, hjw⟩ := h
        have hji : j ≠ i := by
          intro h
          rw [hkey, h] at hjk
          exact hne hjk
        rw [hother j hji] at hjk hjw
        exact ⟨j, hj, hjk, hjw⟩
      · intro h
        obtain ⟨j, hj, hjk, hjw⟩ := h
        have hji : j ≠ i := by
          intro h
          rw [h] at hjk
          exact hne hjk
        exact ⟨j, hj, by rw [hother j hji]; exact hjk, by rw [hother j hji]; exact hjw⟩

/-- The scan sees the valid keys, each in one bucket. -/
theorem Good.mem_scanned (hg : Good hash t) {k : Key} {v : V} (hv : isValid k = true) :
    Has t.capacity t.buckets k v ↔ ∃ b ∈ t.scanned, b.key = k ∧ b.value = v := by
  have hle := hg.occupancy_le
  simp only [scanned, List.mem_map, List.mem_range]
  constructor
  · intro h
    obtain ⟨i, hi, hk, hval⟩ := h
    refine ⟨_, ⟨i, ?_, rfl⟩, hk, hval⟩
    split
    · next hs => exact (hg.small hs i hi).1 (by rw [hk, hv])
    · exact hi
  · intro h
    obtain ⟨b, ⟨i, hi, hb⟩, hk, hval⟩ := h
    subst hb
    refine ⟨i, ?_, hk, hval⟩
    split at hi <;> omega

theorem Good.scanned_distinct (hg : Good hash t) :
    t.scanned.Pairwise fun b b' => isValid b.key = true → b.key ≠ b'.key := by
  have hle := hg.occupancy_le
  have hlt : (if t.capacity < MIN_HT_CAPACITY then t.occupancy else t.capacity) ≤ t.capacity := by
    split <;> omega
  refine List.pairwise_map.2 (List.pairwise_lt_range.imp_of_mem fun {i j} hi hj hij hv hk => ?_)
  rw [List.mem_range] at hi hj
  have := hg.distinct i (by omega) j (by omega) hv hk
  omega

theorem Holds.congr {m m' : Key → Option V} (h : Holds hash t m)
    (hm : ∀ k, isValid k = true → m k = m' k) : Holds hash t m' :=
  ⟨h.good, fun k v hk => by rw [h.has k v hk, hm k hk]⟩

theorem Holds.puts {t' : HyperTable V} {m : Key → Option V} {b : Bucket V} (h : Holds hash t m)
    (hg : Good hash t') (hp : Puts b (Has t.capacity t.buckets) (Has t'.capacity t'.buckets)) :
    Holds hash t' (Function.update m b.key (some b.value)) := by
  refine ⟨hg, fun k v hk => ?_⟩
  rw [hp k v hk, Function.update_apply]
  split
  · exact ⟨fun h => by rw [h], fun h => (Option.some.inj h).symm⟩
  · exact h.has k v hk

theorem Holds.insertLinear {m : Key → Option V} {b : Bucket V} (h : Holds hash t m)
    (hs : t.capacity < 8) (hlt : t.occupancy < t.capacity) (hv : isValid b.key = true) :
    Holds hash (t.insertLinear b) (Function.update m b.key (some b.value)) := by
  obtain ⟨hg, hcap, -, hp, -⟩ := insertLinear_spec h.good hs hlt hv
  rw [← hcap] at hp
  exact h.puts hg (by rw [← hcap]; exact hp)

theorem actsAsMap_of_insertOk [Inhabited V] {b : Bucket V} (hg : Good hash t)
    (hc : t.capacity < 2 ^ 27)
    (hv : isValid b.key = true) (hok : t.find hash b.key = none → InsertOk hash t b.key) :
    ActsAsMap hash t b := by
  refine ⟨find_spec hg (by omega) hv, fun ha => ?_⟩
  have hnone : t.find hash b.key = none := by
    rcases find_spec hg (by omega) hv with ⟨i, hi, -, hk⟩ | ⟨hfind, -⟩
    · exact absurd hk (ha i hi)
    · exact hfind
  obtain ⟨t', ht', h⟩ := insert_spec hg hc hv (hok hnone)
  exact ⟨true, t', ht', h⟩

end HyperTable

/-! ## The loop -/

section

variable {hash : Key → Nat} {leftDst : Bool} {ml mr : Key → Option ReducerBase}

theorem mergeStep_good {s s' : MergeState} {b : Bucket ReducerBase} (hg : Good hash s.dst)
    (hops : isValid b.key = true → ActsAsMap hash s.dst b)
    (hs : mergeStep hash leftDst s b = some s') : Good hash s'.dst := by
  cases hv : isValid b.key with
  | false =>
    simp only [mergeStep, hv, Bool.not_false, if_true] at hs
    cases hs
    exact hg
  | true =>
    rcases (hops hv).find with ⟨i, hi, hfind, hk⟩ | ⟨hfind, habs⟩
    · cases leftDst with
      | true =>
        simp only [mergeStep, hv, hfind, Bool.not_true, Bool.false_eq_true, if_false, if_true] at hs
        cases hs
        exact hg
      | false =>
        simp only [mergeStep, hv, hfind, Bool.not_true, Bool.false_eq_true, if_false] at hs
        cases hs
        exact (hg.setValue hi (by rw [hk, hv]) _).1
    · obtain ⟨r, t', hins, hg', -⟩ := (hops hv).insert habs
      simp only [mergeStep, hv, hfind, hins, Bool.not_true, Bool.false_eq_true, if_false,
        Option.map_some] at hs
      cases hs
      exact hg'

theorem mergesAsMap_of_insertsOk {left right : HyperTable ReducerBase}
    (hg : Good hash (if leftDst then left else right))
    (hok : InsertsOk hash leftDst { dst := if leftDst then left else right } (if leftDst then right
      else left).scanned) :
    MergesAsMap hash leftDst left right := by
  intro pre b s hpre hv hs
  generalize (if leftDst then right else left).scanned = bs at hok hpre
  generalize hs₀ : ({ dst := if leftDst then left else right } : MergeState) = s₀ at hok hs
  replace hg : Good hash s₀.dst := by
    rw [← hs₀]
    exact hg
  clear hs₀
  induction pre generalizing s₀ bs with
  | nil =>
    cases hs
    obtain ⟨post, hpost⟩ := hpre
    subst hpost
    obtain ⟨hc, hins⟩ := hok.1 hv
    exact actsAsMap_of_insertOk hg hc hv hins
  | cons a pre ih =>
    obtain ⟨post, hpost⟩ := hpre
    subst hpost
    rw [List.foldlM_cons, Option.bind_eq_bind, Option.bind_eq_some_iff] at hs
    obtain ⟨s₁, hs₁, hs⟩ := hs
    refine ih _ (List.prefix_append _ post) s₁ (hok.2 s₁ hs₁) hs
      (mergeStep_good hg (fun hva => ?_) hs₁)
    obtain ⟨hc, hins⟩ := hok.1 hva
    exact actsAsMap_of_insertOk hg hc hva hins

/-- What the destination has for a key: the merged entry if it was scanned. -/
def partlyMerged (leftDst : Bool) (ml mr : Key → Option ReducerBase) (seen : List Key) (k : Key) :
    Option ReducerBase :=
  if k ∈ seen then mergedEntry leftDst (ml k) (mr k) else if leftDst then ml k else mr k

/-- The loop after some of the source's buckets. -/
structure MergeInv (hash : Key → Nat) (leftDst : Bool) (ml mr : Key → Option ReducerBase)
    (pre : List (Bucket ReducerBase)) (s : MergeState) : Prop where
  holds : Holds hash s.dst (partlyMerged leftDst ml mr (pre.map (·.key)))
  events : s.events = ((pre.map (·.key)).filter isValid).flatMap (keyEvents leftDst ml mr)

/-- The bucket's key is merged, the others are as they were. -/
theorem partlyMerged_concat {pre : List (Bucket ReducerBase)} {b : Bucket ReducerBase} (k : Key) :
    partlyMerged leftDst ml mr ((pre ++ [b]).map (·.key)) k =
      Function.update (partlyMerged leftDst ml mr (pre.map (·.key))) b.key
      (mergedEntry leftDst (ml b.key) (mr b.key)) k := by
  by_cases hk : k = b.key
  · simp [partlyMerged, hk]
  · simp [partlyMerged, hk]

theorem MergeInv.step {pre : List (Bucket ReducerBase)} {s : MergeState} {b : Bucket ReducerBase}
    (h : MergeInv hash leftDst ml mr pre s) (hnew : ∀ a ∈ pre, isValid a.key = true → a.key ≠ b.key)
    (hsrc : isValid b.key = true → (if leftDst then mr b.key else ml b.key) = some b.value)
    (hops : isValid b.key = true → ActsAsMap hash s.dst b) :
    ∃ s', mergeStep hash leftDst s b = some s' ∧ MergeInv hash leftDst ml mr (pre ++ [b]) s' := by
  cases hv : isValid b.key with
  | false =>
    refine ⟨s, by simp [mergeStep, hv], ?_, ?_⟩
    · refine h.holds.congr fun k hk => ?_
      rw [partlyMerged_concat, Function.update_of_ne]
      intro he
      rw [← he, hk] at hv
      cases hv
    · rw [h.events]
      simp [hv]
  | true =>
    have hunseen : b.key ∉ pre.map (·.key) := fun hmem => by
      obtain ⟨a, ha, hab⟩ := List.mem_map.1 hmem
      exact hnew a ha (by rw [hab, hv]) hab
    have hold : partlyMerged leftDst ml mr (pre.map (·.key)) b.key =
        if leftDst then ml b.key else mr b.key := if_neg hunseen
    have hevents : ((pre ++ [b]).map (·.key)).filter isValid =
        (pre.map (·.key)).filter isValid ++ [b.key] := by
      simp [hv]
    have hs := hsrc hv
    rcases (hops hv).find with ⟨i, hi, hfind, hk⟩ | ⟨hfind, habs⟩
    · have hdst := (h.holds.has b.key _ hv).1 ⟨i, hi, hk, rfl⟩
      rw [hold] at hdst
      cases leftDst with
      | true =>
        simp only [if_true] at hs hdst
        refine ⟨_, by simp [mergeStep, hv, hfind]; rfl, ?_, ?_⟩
        · refine h.holds.congr fun k _ => ?_
          rw [partlyMerged_concat, Function.update_apply]
          split
          · next hkb =>
            subst hkb
            rw [hold, if_pos rfl, hs, hdst, mergedEntry]
            rfl
          · rfl
        · rw [hevents, List.flatMap_append, List.flatMap_singleton, keyEvents, hs, hdst, h.events]
          rfl
      | false =>
        simp only [Bool.false_eq_true, if_false] at hs hdst
        refine ⟨_, by simp [mergeStep, hv, hfind]; rfl, ?_, ?_⟩
        · obtain ⟨hg, hp⟩ :=
            h.holds.good.setValue hi (by rw [hk, hv])
              { (s.dst.buckets i).value with view := b.value.view }
          refine (h.holds.puts hg hp).congr fun k _ => ?_
          rw [partlyMerged_concat, hk, hs, hdst, mergedEntry]
          rfl
        · rw [hevents, List.flatMap_append, List.flatMap_singleton, keyEvents, hs, hdst, h.events]
          rfl
    · obtain ⟨r, t', hins, hg, hp⟩ := (hops hv).insert habs
      have hdst := (h.holds.absent_iff hv).1 habs
      rw [hold] at hdst
      have hentry : mergedEntry leftDst (ml b.key) (mr b.key) = some b.value := by
        cases leftDst with
        | true =>
          simp only [if_true] at hs hdst
          rw [hs, hdst, mergedEntry]
        | false =>
          simp only [Bool.false_eq_true, if_false] at hs hdst
          rw [hs, hdst, mergedEntry]
      refine ⟨{ s with dst := t' }, by simp [mergeStep, hv, hfind, hins], ?_, ?_⟩
      · refine (h.holds.puts hg hp).congr fun k _ => ?_
        rw [partlyMerged_concat, hentry]
      · have hnone : keyEvents leftDst ml mr b.key = [] := by
          cases leftDst with
          | true =>
            simp only [if_true] at hdst
            simp [keyEvents, hdst]
          | false =>
            simp only [Bool.false_eq_true, if_false] at hdst
            simp [keyEvents, hdst]
        rw [hevents, List.flatMap_append, List.flatMap_singleton, hnone, List.append_nil]
        exact h.events

/-- The whole loop. -/
theorem mergeInto_inv {left right : HyperTable ReducerBase} (hl : Holds hash left ml)
    (hr : Holds hash right mr) (hops : MergesAsMap hash leftDst left right) :
    ∃ s, mergeInto hash leftDst left right = some s ∧
      MergeInv hash leftDst ml mr (if leftDst then right else left).scanned s := by
  have hsrc : Holds hash (if leftDst then right else left) (if leftDst then mr else ml) := by
    cases leftDst with
    | true => exact hr
    | false => exact hl
  have hdst : Holds hash (if leftDst then left else right) (partlyMerged leftDst ml mr []) := by
    cases leftDst with
    | true => exact hl.congr fun k _ => rfl
    | false => exact hr.congr fun k _ => rfl
  have hdistinct := hsrc.good.scanned_distinct
  suffices ∀ pre post, pre ++ post = (if leftDst then right else left).scanned →
      ∃ s, pre.foldlM (mergeStep hash leftDst) { dst := if leftDst then left else right } = some s ∧
        MergeInv hash leftDst ml mr pre s from this _ [] (List.append_nil _)
  intro pre
  induction pre using List.reverseRecOn with
  | nil => exact fun _ _ => ⟨_, rfl, hdst, rfl⟩
  | append_singleton pre b ih =>
    intro post hpost
    have happ : pre ++ ([b] ++ post) = (if leftDst then right else left).scanned := by
      rw [← List.append_assoc, hpost]
    obtain ⟨s, hs, hinv⟩ := ih _ happ
    have hb : b ∈ (if leftDst then right else left).scanned := by rw [← happ]; simp
    rw [← happ, List.pairwise_append] at hdistinct
    obtain ⟨s', hs', hinv'⟩ := hinv.step (b := b) (fun a ha => hdistinct.2.2 a ha b (by simp))
      (fun hv => by
        have hm := (hsrc.has b.key b.value hv).1 ((hsrc.good.mem_scanned hv).2 ⟨b, hb, rfl, rfl⟩)
        cases leftDst with
        | true => exact hm
        | false => exact hm)
      fun hv => hops pre b s ⟨post, hpost⟩ hv hs
    refine ⟨s', ?_, hinv'⟩
    rw [List.foldlM_append, hs]
    simp [hs']

theorem mergedEntry_view (l r : Option ReducerBase) :
    (mergedEntry leftDst l r).map (·.view) = (l.or r).map (·.view) := by
  cases l <;> cases r <;> rfl

theorem flatMap_filter_eq {α β : Type} {p : α → Bool} {f : α → List β}
    (h : ∀ a, p a = false → f a = []) (l : List α) : (l.filter p).flatMap f = l.flatMap f := by
  induction l with
  | nil => rfl
  | cons a l ih =>
    rw [List.flatMap_cons, List.filter_cons]
    split
    · rw [List.flatMap_cons, ih]
    · next hp => rw [h a (by simpa using hp), List.nil_append, ih]

/-- **A merge is an ordered union**, whichever table is the destination. -/
theorem mergeInto_spec {left right : HyperTable ReducerBase} (hl : Holds hash left ml)
    (hr : Holds hash right mr) (hops : MergesAsMap hash leftDst left right) :
    ∃ s, mergeInto hash leftDst left right = some s ∧
    OrderedUnion hash leftDst ml mr (some s.dst) s.events := by
  obtain ⟨s, hs, hinv⟩ := mergeInto_inv hl hr hops
  have hsrc : Holds hash (if leftDst then right else left) (if leftDst then mr else ml) := by
    cases leftDst with
    | true => exact hr
    | false => exact hl
  have hscan : ∀ k, isValid k = true → (k ∈ (if leftDst then right else left).scanned.map (·.key) ↔
      ((if leftDst then mr else ml) k).isSome = true) := fun k hk => by
    rw [List.mem_map, Option.isSome_iff_exists]
    constructor
    · intro h
      obtain ⟨b, hb, hbk⟩ := h
      exact ⟨b.value, (hsrc.has k _ hk).1 ((hsrc.good.mem_scanned hk).2 ⟨b, hb, hbk, rfl⟩)⟩
    · intro h
      obtain ⟨v, hv⟩ := h
      obtain ⟨b, hb, hbk, -⟩ := (hsrc.good.mem_scanned hk).1 ((hsrc.has k v hk).2 hv)
      exact ⟨b, hb, hbk⟩
  refine ⟨s, hs, ⟨_, hinv.holds, fun k hk => ?_⟩, ?_⟩
  · have hm : partlyMerged leftDst ml mr ((if leftDst then right else left).scanned.map (·.key)) k =
        mergedEntry leftDst (ml k) (mr k) := by
      by_cases hn : k ∈ (if leftDst then right else left).scanned.map (·.key)
      · exact if_pos hn
      · refine (if_neg hn).trans ?_
        rw [hscan k hk, Bool.not_eq_true, Option.isSome_eq_false_iff,
          Option.isNone_iff_eq_none] at hn
        cases leftDst with
        | true =>
          simp only [if_true] at hn ⊢
          rw [hn]
          cases ml k <;> rfl
        | false =>
          simp only [Bool.false_eq_true, if_false] at hn ⊢
          rw [hn]
          rfl
    exact ⟨hm, by rw [hm, mergedEntry_view]⟩
  · let shared : Key → Bool := fun k => (ml k).isSome && (mr k).isSome
    refine ⟨(((if leftDst then right else left).scanned.map (·.key)).filter isValid).filter shared,
      ?_, fun k => ?_, ?_⟩
    · refine List.Nodup.filter _ ?_
      rw [List.Nodup, List.pairwise_filter, List.pairwise_map]
      exact hsrc.good.scanned_distinct.imp fun h hv _ => h hv
    · simp only [List.mem_filter, shared, Bool.and_eq_true]
      constructor
      · intro h
        obtain ⟨⟨_, hv⟩, h⟩ := h
        exact ⟨hv, h⟩
      · intro h
        obtain ⟨hv, h⟩ := h
        refine ⟨⟨(hscan k hv).2 ?_, hv⟩, h⟩
        cases leftDst with
        | true => exact h.2
        | false => exact h.1
    · refine hinv.events.trans (flatMap_filter_eq (fun k hk => ?_) _).symm
      unfold keyEvents
      split
      · next hl' hr' => simp [shared, hl', hr'] at hk
      · rfl

/-! ## Merging two tables -/

theorem OrderedUnion.of_left_empty {t : Option (HyperTable ReducerBase)}
    (hl : ∀ k, isValid k = true → ml k = none)
    (hr : Stands hash t mr) : OrderedUnion hash leftDst ml mr t [] :=
  ⟨⟨mr, hr, fun k hk => by rw [hl k hk]; exact ⟨rfl, rfl⟩⟩, [], List.nodup_nil,
    fun k => iff_of_false List.not_mem_nil fun h => by simp [hl k h.1] at h, rfl⟩

theorem OrderedUnion.of_right_empty {t : Option (HyperTable ReducerBase)} (hl : Stands hash t ml)
    (hr : ∀ k, isValid k = true → mr k = none) : OrderedUnion hash leftDst ml mr t [] :=
  ⟨⟨ml, hl, fun k hk => by rw [hr k hk]; cases ml k <;> exact ⟨rfl, rfl⟩⟩, [], List.nodup_nil,
    fun k => iff_of_false List.not_mem_nil fun h => by simp [hr k h.1] at h, rfl⟩

theorem OrderedUnion.good {t : Option (HyperTable ReducerBase)} {events : List ViewEvent}
    (h : OrderedUnion hash leftDst ml mr t events) : ∀ u ∈ t, Good hash u := by
  rintro u rfl
  obtain ⟨m, hm, -⟩ := h.views
  exact hm.good

theorem eq_none_of_unoccupied {t : HyperTable ReducerBase} {m : Key → Option ReducerBase}
    (h : Holds hash t m) (ho : t.occupancy = 0) (k : Key) (hk : isValid k = true) : m k = none := by
  refine (h.absent_iff hk).1 fun i hi hki => ?_
  have hcount := h.good.occupied
  rw [ho, count, List.countP_eq_zero] at hcount
  exact hcount i (List.mem_range.2 hi) (by rw [hki, hk])

/-- Either table may be missing. -/
theorem mergeTwoHyperTables_orderedUnion {left right : Option (HyperTable ReducerBase)}
    (hl : Stands hash left ml) (hr : Stands hash right mr)
    (hops : ∀ l r, left = some l → right = some r → l.occupancy ≠ 0 → r.occupancy ≠ 0 →
      MergesAsMap hash (l.occupancy ≥ r.occupancy) l r) :
    ∃ r leftDst, mergeTwoHyperTables hash left right = some r ∧
    OrderedUnion hash leftDst ml mr r.table r.events := by
  cases left with
  | none => exact ⟨_, true, rfl, .of_left_empty hl hr⟩
  | some l =>
    cases right with
    | none => exact ⟨_, true, rfl, .of_right_empty hl hr⟩
    | some r =>
      by_cases hl0 : l.occupancy = 0
      · exact ⟨_, true, if_pos hl0, .of_left_empty (eq_none_of_unoccupied hl hl0) hr⟩
      · by_cases hr0 : r.occupancy = 0
        · exact ⟨_, true, (if_neg hl0).trans (if_pos hr0),
            .of_right_empty hl (eq_none_of_unoccupied hr hr0)⟩
        · obtain ⟨s, hs, hu⟩ := mergeInto_spec hl hr (hops l r rfl rfl hl0 hr0)
          have hmerge : mergeTwoHyperTables hash (some l) (some r) = some {
              table := some s.dst
              events := s.events
              deleted := some (if decide (l.occupancy ≥ r.occupancy) then .right else .left) } := by
            simp only [mergeTwoHyperTables, if_neg hl0, if_neg hr0, hs, Option.map_some]
          exact ⟨_, _, hmerge, hu⟩

/-- **Merging two tables**: the result is the ordered union, and it is so
whichever table is made the destination. -/
theorem mergeTwoHyperTables_spec {left right : Option (HyperTable ReducerBase)}
    (hl : Stands hash left ml) (hr : Stands hash right mr)
    (hops : ∀ l r leftDst, left = some l → right = some r → MergesAsMap hash leftDst l r) :
    (∃ r leftDst, mergeTwoHyperTables hash left right = some r ∧
      OrderedUnion hash leftDst ml mr r.table r.events) ∧
      ∀ l r leftDst, left = some l → right = some r →
        ∃ s, mergeInto hash leftDst l r = some s ∧
        OrderedUnion hash leftDst ml mr (some s.dst) s.events := by
  refine ⟨mergeTwoHyperTables_orderedUnion hl hr fun l r hleft hright _ _ =>
    hops l r _ hleft hright, ?_⟩
  intro l r leftDst hleft hright
  subst hleft hright
  exact mergeInto_spec hl hr (hops l r leftDst rfl rfl)

/-- A table with one view. -/
def oneView (view : Key) : HyperTable ReducerBase :=
  empty.insertLinear { key := 16#64, value := ⟨view, 1⟩ }

theorem holds_oneView (hash : Key → Nat) (view : Key) :
    Holds hash (oneView view) (Function.update (fun _ => none) 16#64 (some ⟨view, 1⟩)) :=
  (Holds.empty hash).insertLinear (by decide) (by decide) rfl

/-- The key 16 is in both tables, and each has one that the other has not. -/
theorem mergeTwoHyperTables_spec_twoViews :
    ∃ r leftDst, mergeTwoHyperTables HyperTable.hash
        (some ((oneView 100#64).insertLinear { key := 32#64, value := ⟨132#64, 1⟩ }))
        (some ((oneView 200#64).insertLinear { key := 48#64, value := ⟨248#64, 1⟩ })) = some r ∧
      OrderedUnion HyperTable.hash leftDst
        (Function.update (Function.update (fun _ => none) 16#64 (some ⟨100#64, 1⟩)) 32#64
          (some ⟨132#64, 1⟩))
        (Function.update (Function.update (fun _ => none) 16#64 (some ⟨200#64, 1⟩)) 48#64
          (some ⟨248#64, 1⟩))
        r.table r.events := by
  have hl : Holds HyperTable.hash _ _ := (holds_oneView HyperTable.hash 100#64).insertLinear
    (b := { key := 32#64, value := (⟨132#64, 1⟩ : ReducerBase) }) (by decide) (by decide) rfl
  have hr : Holds HyperTable.hash _ _ := (holds_oneView HyperTable.hash 200#64).insertLinear
    (b := { key := 48#64, value := (⟨248#64, 1⟩ : ReducerBase) }) (by decide) (by decide) rfl
  refine (mergeTwoHyperTables_spec (show Stands _ (some _) _ from hl)
    (show Stands _ (some _) _ from hr) fun l r leftDst hleft hright => ?_).1
  cases hleft
  cases hright
  cases leftDst with
  | true => exact mergesAsMap_of_insertsOk hl.good (by decide)
  | false => exact mergesAsMap_of_insertsOk hr.good (by decide)

end

end Cilksan
