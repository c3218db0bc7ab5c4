/-
Reducing the views of a frame into the leftmost ones (`reduce_local_views`,
`reducers.cpp`).

The keys to remove go through a vector of 32-bit integers, and are then used
as indices of the buckets.
-/
import CilkTools.Cilksan.MergeViews
import Mathlib.Data.Finset.Card

namespace Cilksan

open HyperTable

/-- The loop over the buckets. -/
structure ScanState where
  holdsLeftmostViews : Bool := false
  events : List ViewEvent := []
  keysToRemove : List (BitVec 32) := []

def scanStep (s : ScanState) (b : Bucket ReducerBase) : ScanState :=
  if !isValid b.key then s
  else if b.key = b.value.view then { s with holdsLeftmostViews := true }
  else { s with
    events := s.events ++ reduceInto b.value.reduceFn b.key b.value.view
    keysToRemove := s.keysToRemove ++ [b.key.setWidth 32] }

def scanViews (t : HyperTable ReducerBase) : ScanState :=
  ((List.range t.capacity).map t.buckets).foldl scanStep {}

/-- `remove` puts a new array of buckets in the place of the old one. -/
def HyperTable.rebuilds {V : Type} (hash : Key → Nat) (t : HyperTable V) (key : Key) : Bool :=
  MIN_HT_CAPACITY ≤ t.capacity && (t.find hash key).isSome &&
    (isUnderloaded (t.occupancy - 1) t.capacity || timeToRebuild (t.insRmCount + 1) t.capacity)

/-- The table, and whether `buckets` points to an array that was replaced. -/
structure RemovalState where
  table : HyperTable ReducerBase
  replaced : Bool := false

/-- `remove(buckets[index].key)`; there is no result if the index is outside
the array, or the array replaced. -/
def removeAt (hash : Key → Nat) (s : RemovalState) (index : BitVec 32) : Option RemovalState :=
  if s.replaced = true ∨ index.toInt < 0 ∨ (s.table.capacity : Int) ≤ index.toInt then none
  else
    let key := (s.table.buckets index.toInt.toNat).key
    (s.table.remove hash key).map fun r => ⟨r.2, s.table.rebuilds hash key⟩

/-- The loop over the keys to remove. -/
def removals (hash : Key → Nat) (s : RemovalState) (ks : List (BitVec 32)) : Option RemovalState :=
  ks.foldlM (removeAt hash) s

/-- The views of the head frame and, if that has a parent continuation, of the
frame there. -/
structure FrameViews where
  parent : Option (Option (HyperTable ReducerBase))
  head : Option (HyperTable ReducerBase)

def reduceLocalViews (hash : Key → Nat) (f : FrameViews) : Option (FrameViews × List ViewEvent) :=
  match f.head with
  | none => some (f, [])
  | some t =>
    match f.parent with
    | some p =>
      (mergeTwoHyperTables hash p (some t)).map fun r =>
        ({ parent := some r.table, head := none }, r.events)
    | none =>
      let s := scanViews t
      if !s.holdsLeftmostViews then some ({ f with head := none }, s.events)
      else (removals hash { table := t } s.keysToRemove).map fun r =>
        ({ f with head := some r.table }, s.events)

/-! ## What should be left -/

/-- The entries whose view is the leftmost one. -/
def leftmost (m : Key → Option ReducerBase) (k : Key) : Option ReducerBase :=
  (m k).filter fun v => v.view = k

def foldEvents (m : Key → Option ReducerBase) (k : Key) : List ViewEvent :=
  match m k with
  | some v => reduceInto v.reduceFn k v.view
  | none => []

/-- The other views are reduced into the leftmost ones and freed, each once,
and their entries are gone; with no other left so is the table. -/
structure LeavesLeftmost (hash : Key → Nat) (m : Key → Option ReducerBase)
    (r : FrameViews × List ViewEvent) : Prop where
  effects : ∃ keys : List Key, keys.Nodup ∧
    (∀ k, k ∈ keys ↔ isValid k = true ∧ ∃ v, m k = some v ∧ v.view ≠ k) ∧
    r.2 = keys.flatMap (foldEvents m)
  table : Stands hash r.1.head (leftmost m)
  null : r.1.head = none ↔ ∀ k, isValid k = true → leftmost m k = none

/-! ## Which indices are right -/

/-- The bucket's view is not a leftmost one. -/
def marked (t : HyperTable ReducerBase) (i : Nat) : Bool :=
  i < t.capacity && isValid (t.buckets i).key && (t.buckets i).key != (t.buckets i).value.view

/-- The marks once the bucket at `i` is removed; in a small table the last one
takes its place. -/
def unmark (small : Bool) (n : Nat) (marks : Nat → Bool) (i : Nat) : Nat → Bool :=
  if small then Function.update (Function.update marks i (marks (n - 1))) (n - 1) false
  else Function.update marks i false

/-- Each index is that of a marked bucket when its turn comes. -/
def Hits (small : Bool) : Nat → (Nat → Bool) → List Int → Prop
  | _, _, [] => True
  | n, marks, i :: is =>
    0 ≤ i ∧ marks i.toNat = true ∧ Hits small (n - 1) (unmark small n marks i.toNat) is

/-- The entries whose view is another, in the order of the buckets. -/
def others (t : HyperTable ReducerBase) : List (Bucket ReducerBase) :=
  ((List.range t.capacity).map t.buckets).filter fun b => isValid b.key && b.key != b.value.view

/-- The indices that their keys are taken for. -/
def indices (t : HyperTable ReducerBase) : List Int :=
  (others t).map fun b => (b.key.setWidth 32).toInt

/-- They hit, and no removal but the last puts a new array in place. -/
structure RemovalsHit (t : HyperTable ReducerBase) : Prop where
  hits : Hits (t.capacity < MIN_HT_CAPACITY) t.occupancy (marked t) (indices t)
  kept : MIN_HT_CAPACITY ≤ t.capacity → ∀ j, 0 < j → j < (indices t).length →
    isUnderloaded (t.occupancy - j) t.capacity = false ∧
    timeToRebuild (t.insRmCount + j) t.capacity = false

/-! ## The scan -/

section

variable {t : HyperTable ReducerBase}

theorem foldl_scanStep (bs : List (Bucket ReducerBase)) (s : ScanState) :
    bs.foldl scanStep s = {
      holdsLeftmostViews :=
        s.holdsLeftmostViews || bs.any fun b => isValid b.key && b.key == b.value.view
      events := s.events ++ (bs.filter fun b => isValid b.key && b.key != b.value.view).flatMap
        fun b => reduceInto b.value.reduceFn b.key b.value.view
      keysToRemove :=
        s.keysToRemove ++ (bs.filter fun b => isValid b.key && b.key != b.value.view).map
          fun b => b.key.setWidth 32 } := by
  induction bs generalizing s with
  | nil => simp
  | cons b bs ih =>
    rw [List.foldl_cons, ih, scanStep]
    cases hv : isValid b.key with
    | false => simp [hv]
    | true =>
      by_cases hk : b.key = b.value.view
      · have hv' : isValid b.value.view = true := hk ▸ hv
        simp [hk, hv']
      · have hk' : (b.key == b.value.view) = false := by simpa using hk
        simp [hv, hk, hk']

end

/-! ## Removing any key -/

namespace HyperTable

section

variable {V : Type} [Inhabited V] {hash : Key → Nat} {t new : HyperTable V} {n m : Nat}

theorem foldlM_eq_none {α β : Type} {f : β → α → Option β} {a : α} (hf : ∀ s, f s a = none)
    (l : List α) (ha : a ∈ l) (s : β) : l.foldlM f s = none := by
  induction l generalizing s with
  | nil => cases ha
  | cons x l ih =>
    rw [List.foldlM_cons]
    by_cases hx : a = x
    · rw [← hx, hf]
      rfl
    · cases hs : f s x with
      | none => rfl
      | some s' => exact ih ((List.mem_cons.1 ha).resolve_left hx) s'

/-- A rebuild without insertions, of a table that has something to insert. -/
theorem rebuildWith_eq_none (hg : Good hash t) (ho : 0 < t.occupancy) (n : Nat) :
    rebuildWith (fun _ _ => none) t n = none := by
  rw [← hg.occupied, count, List.countP_pos_iff] at ho
  obtain ⟨i, hi, hv⟩ := ho
  exact foldlM_eq_none (fun s => by simp [hv]) _ hi _

/-- An insertion of a rebuild that returns has found room. -/
theorem Rebuilt.room (hr : Rebuilt hash t n m new) {b : Bucket V} {r : Bool × HyperTable V}
    (h : insertDepth hash 1 new b = some r) :
    if n < 8 then new.occupancy < n else
      isOverloaded new.occupancy n = false ∧ timeToRebuild new.insRmCount n = false := by
  have hcap := hr.capacity
  have hocc := hr.occupancy
  have hins := hr.insRmCount
  simp only [insertDepth, insertWith, MIN_HT_CAPACITY, hcap] at h
  split
  · next hs =>
    by_contra hfull
    have hnone := rebuildWith_eq_none hr.good (show 0 < new.occupancy by
      obtain ⟨k, hk⟩ := hr.good.capacity
      have : 0 < 2 ^ k := Nat.two_pow_pos k
      omega)
    rw [if_neg fun h => hfull h.2] at h
    simp [makeRoom, MIN_HT_CAPACITY, hcap, hs, hnone] at h
  · next hs =>
    rw [if_neg fun h => hs h.1] at h
    simp only [makeRoom, MIN_HT_CAPACITY, hcap, hs, if_false, Option.bind_eq_bind,
      Option.bind_some] at h
    cases hover : isOverloaded new.occupancy n with
    | true =>
      rw [isOverloaded_iff] at hover
      have hnone := rebuildWith_eq_none hr.good (by omega) (n * 2)
      simp [isOverloaded_iff.2 hover, hnone] at h
    | false =>
      cases htime : timeToRebuild new.insRmCount n with
      | true =>
        have hpos : 0 < new.occupancy := by
          by_contra h0
          rw [timeToRebuild_neg (by omega)] at htime
          cases htime
        have hnone := rebuildWith_eq_none hr.good hpos n
        simp [hover, htime, hnone] at h
      | false => exact ⟨rfl, rfl⟩

/-- A rebuild that returns has kept the contents, whatever occupancy the table
says it has. -/
theorem rebuild_has (hd : ∀ i < t.capacity, ∀ j < t.capacity, isValid (t.buckets i).key = true →
      (t.buckets i).key = (t.buckets j).key → i = j)
    (hcap : ∃ k, n = 4 * 2 ^ k) (hn : n ≤ 2 ^ 32) (h : rebuild hash t n = some new) :
    ∀ k v, isValid k = true →
    (Has new.capacity new.buckets k v ↔ Has t.capacity t.buckets k v) := by
  suffices ∀ m ≤ t.capacity, ∀ new, (List.range m).foldlM (fun new i =>
        if isValid (t.buckets i).key then (insertDepth hash 1 new (t.buckets i)).map (·.2)
          else some new)
      { capacity := n, occupancy := 0, insRmCount := -t.occupancy,
        buckets := bucketArrayCreate n } = some new →
      Rebuilt hash t n m new by
    have hr := this t.capacity (Nat.le_refl _) new h
    rw [hr.capacity]
    exact hr.has
  intro m
  induction m with
  | zero =>
    intro _ new hnew
    cases hnew
    exact .init hcap
  | succ m ih =>
    intro hm new hnew
    rw [List.range_succ, List.foldlM_append] at hnew
    simp only [Option.bind_eq_bind, Option.bind_eq_some_iff] at hnew
    obtain ⟨mid, hmid, hnew⟩ := hnew
    have hr := ih (by omega) mid hmid
    simp only [List.foldlM_cons, List.foldlM_nil, Option.bind_eq_bind,
      Option.bind_eq_some_iff] at hnew
    obtain ⟨new', hnew, heq⟩ := hnew
    cases heq
    cases hv : isValid (t.buckets m).key with
    | false =>
      simp only [hv, Bool.false_eq_true, if_false] at hnew
      cases hnew
      exact hr.skip hv
    | true =>
      simp only [hv, if_true, Option.map_eq_some_iff] at hnew
      obtain ⟨r, hr', heq⟩ := hnew
      obtain ⟨new', hput, hr''⟩ := hr.put (d := 0) hd hm hn (hr.room hr') hv
      rw [hput] at hr'
      cases hr'
      cases heq
      exact hr''

/-- A table that is good but for the occupancy it says it has. -/
structure Loose (hash : Key → Nat) (t : HyperTable V) : Prop where
  good : Good hash { t with occupancy := count isValid t.capacity t.buckets }
  small : t.capacity < 8 → t.occupancy = count isValid t.capacity t.buckets

omit [Inhabited V] in
theorem Good.loose (hg : Good hash t) : Loose hash t :=
  ⟨by rw [hg.occupied]; exact hg, fun _ => hg.occupied.symm⟩

omit [Inhabited V] in
theorem Loose.distinct (hl : Loose hash t) :
    ∀ i < t.capacity, ∀ j < t.capacity, isValid (t.buckets i).key = true →
    (t.buckets i).key = (t.buckets j).key → i = j :=
  hl.good.distinct

omit [Inhabited V] in
theorem Loose.of_small (hl : Loose hash t) (hs : t.capacity < 8) : Good hash t := by
  have hg := hl.good
  rw [← hl.small hs] at hg
  exact hg

omit [Inhabited V] in
/-- The key's bucket, whatever key it is, becomes a tombstone. -/
theorem Loose.bury (hl : Loose hash t) (h8 : 8 ≤ t.capacity) {i : Nat} (hi : i < t.capacity)
    {o : Nat} {c : Int} : Loose hash { t with
      buckets := Function.update t.buckets i (t.buckets i).makeTombstone, occupancy :=
        o, insRmCount := c } ∧
    Drops (t.buckets i).key (Has t.capacity t.buckets)
      (Has t.capacity (Function.update t.buckets i (t.buckets i).makeTombstone)) := by
  have hb := hl.good.hashed h8
  have hload := hl.good.load h8
  have hcount := count_update isValid t.buckets (t.buckets i).makeTombstone hi
  have htomb : isValid (t.buckets i).makeTombstone.key = false := by
    simp [Bucket.makeTombstone, isValid, isTombstone]
  rw [htomb] at hcount
  simp only [Bool.toNat_false] at hcount
  refine ⟨⟨.of_hashed hl.good.capacity h8 rfl hb.bury ?_, fun hs => ?_⟩, ?_⟩
  · simp only at hload ⊢
    omega
  · simp only at hs
    omega
  · cases hv : isValid (t.buckets i).key with
    | true => exact drops_bury hb hi rfl hv
    | false =>
      intro k v hk
      have hne : k ≠ (t.buckets i).key := fun h => by
        rw [← h, hk] at hv
        cases hv
      rw [has_update hi v hne.symm, or_iff_right fun h => ne_of_isValid htomb hk h.1]
      exact ⟨fun h => ⟨hne, h⟩, fun h => h.2⟩

omit [Inhabited V] in
theorem Drops.of_invalid {key : Key} (hv : isValid key = false) (has : Key → V → Prop) :
    Drops key has has := by
  intro k v hk
  have hne : k ≠ key := fun he => by
    rw [he, hv] at hk
    cases hk
  exact ⟨fun h => ⟨hne, h⟩, fun h => h.2⟩

omit [Inhabited V] in
/-- A removal from a small table that returns, of whatever key. -/
theorem Loose.remove_small (hl : Loose hash t) (hs : t.capacity < 8) {key : Key} {r : Bool}
    (h : t.removeLinear key = (r, new)) :
    Drops key (Has t.capacity t.buckets) (Has new.capacity new.buckets) ∧ Loose hash new ∧
    new.capacity = t.capacity := by
  have hg := hl.of_small hs
  cases hv : isValid key with
  | true =>
    obtain ⟨r', t', hrem, hg', hcap, -, hdrops⟩ := removeLinear_spec hg hs hv
    rw [h] at hrem
    cases hrem
    exact ⟨by rw [hcap]; exact hdrops, hg'.loose, hcap⟩
  | false =>
    rcases range_find t.buckets key t.occupancy with ⟨i, hi, hk, hfind⟩ | ⟨-, hfind⟩
    · -- All the buckets that are scanned have valid keys.
      have hle := hg.occupancy_le
      have := (hg.small hs i (by omega)).2 hi
      rw [hk, hv] at this
      cases this
    · simp only [removeLinear, hfind] at h
      cases h
      exact ⟨.of_invalid hv _, hl, rfl⟩

omit [Inhabited V] in
theorem find_key {key : Key} {i : Nat} (h8 : 8 ≤ t.capacity) (h : t.find hash key = some i) :
    i < t.capacity ∧ (t.buckets i).key = key := by
  rw [find, if_neg (show ¬ t.capacity < MIN_HT_CAPACITY from Nat.not_lt.2 h8)] at h
  exact findFrom_some _ _ (getTableEntry_lt hash (by omega) key) h

/-- A removal that returns, of whatever key. -/
theorem Loose.remove (hl : Loose hash t) (hc : t.capacity ≤ 2 ^ 27) {key : Key} {r : Bool}
    (h : t.remove hash key = some (r, new)) :
    Drops key (Has t.capacity t.buckets) (Has new.capacity new.buckets) ∧
      (t.rebuilds hash key = false → Loose hash new ∧ new.capacity = t.capacity) := by
  by_cases hs : t.capacity < 8
  · rw [HyperTable.remove, if_pos (show t.capacity < MIN_HT_CAPACITY from hs)] at h
    obtain ⟨hdrops, hkept⟩ := hl.remove_small hs (Option.some.inj h)
    exact ⟨hdrops, fun _ => hkept⟩
  · have h8 : 8 ≤ t.capacity := Nat.not_lt.1 hs
    have hmin : MIN_HT_CAPACITY ≤ t.capacity := h8
    rw [HyperTable.remove, if_neg (show ¬ t.capacity < MIN_HT_CAPACITY from hs)] at h
    cases hfind : t.find hash key with
    | none =>
      simp only [hfind] at h
      cases h
      refine ⟨?_, fun _ => ⟨hl, rfl⟩⟩
      cases hv : isValid key with
      | true =>
        have hfind' :
            find hash { t with occupancy := count isValid t.capacity t.buckets } key = none := by
          rw [find, if_neg (show ¬ t.capacity < MIN_HT_CAPACITY from hs)] at hfind ⊢
          exact hfind
        rcases find_spec hl.good (show t.capacity ≤ 2 ^ 32 by omega) hv with ⟨i, -,
          hsome, -⟩ | ⟨-, ha⟩
        · rw [hfind'] at hsome
          cases hsome
        · exact .of_absent ha
      | false => exact .of_invalid hv _
    | some i =>
      obtain ⟨hi, hk⟩ := find_key h8 hfind
      subst hk
      obtain ⟨hl', hdrops⟩ := hl.bury h8 hi (o := t.occupancy - 1) (c := t.insRmCount + 1)
      have hrebuilt : ∀ n, (∃ k, n = 4 * 2 ^ k) → n ≤ 2 ^ 32 → ∀ {t' : HyperTable V},
          rebuild hash { t with
            buckets := Function.update t.buckets i (t.buckets i).makeTombstone
            occupancy := t.occupancy - 1
            insRmCount := t.insRmCount + 1 } n = some t' →
          Drops (t.buckets i).key (Has t.capacity t.buckets) (Has t'.capacity t'.buckets) :=
        fun n hn hn' t' ht' k v hk =>
        (rebuild_has hl'.distinct hn hn' ht' k v hk).trans (hdrops k v hk)
      simp only [hfind] at h
      split at h
      · next hunder =>
        obtain ⟨t', ht', heq⟩ := Option.map_eq_some_iff.1 h
        cases heq
        rcases hl.good.small_or with h4 | ⟨-, -, hhalf⟩
        · exact absurd (show t.capacity = 4 from h4) (by omega)
        · have hcap : ∃ k, t.capacity / 2 = 4 * 2 ^ k := hhalf
          refine ⟨hrebuilt _ hcap (by omega) ht', fun hr => ?_⟩
          simp [rebuilds, hmin, hfind, hunder] at hr
      · next hunder =>
        split at h
        · next htime =>
          obtain ⟨t', ht', heq⟩ := Option.map_eq_some_iff.1 h
          cases heq
          have hcap : ∃ k, t.capacity = 4 * 2 ^ k := hl.good.capacity
          refine ⟨hrebuilt _ hcap (by omega) ht', fun hr => ?_⟩
          simp [rebuilds, hmin, hfind, htime] at hr
        · cases h
          exact ⟨hdrops, fun _ => ⟨hl', rfl⟩⟩

end

end HyperTable

/-! ## Removing the other views -/

section

variable {hash : Key → Nat} {t t' : HyperTable ReducerBase} {key : Key}

/-- The keys whose view is another. -/
def otherKeys (t : HyperTable ReducerBase) : Finset Key := ((others t).map (·.key)).toFinset

theorem mem_otherKeys {k : Key} :
    k ∈ otherKeys t ↔
    isValid k = true ∧ ∃ v : ReducerBase, Has t.capacity t.buckets k v ∧ v.view ≠ k := by
  simp only [otherKeys, others, List.mem_toFinset, List.mem_map, List.mem_filter, List.mem_range,
    Bool.and_eq_true, bne_iff_ne, ne_eq]
  constructor
  · intro ⟨b, ⟨⟨i, hi, hb⟩, hv, hne⟩, hk⟩
    subst hb hk
    exact ⟨hv, _, ⟨i, hi, rfl, rfl⟩, fun h => hne h.symm⟩
  · intro ⟨hv, v, ⟨i, hi, hk, hval⟩, hne⟩
    subst hval hk
    exact ⟨_, ⟨⟨i, hi, rfl⟩, hv, fun h => hne h.symm⟩, rfl⟩

theorem otherKeys_of_drops (h : Drops key (Has t.capacity t.buckets) (Has t'.capacity t'.buckets)) :
    otherKeys t' = (otherKeys t).erase key := by
  ext k
  rw [Finset.mem_erase, mem_otherKeys, mem_otherKeys]
  constructor
  · intro ⟨hv, v, hh, hne⟩
    exact ⟨((h k v hv).1 hh).1, hv, v, ((h k v hv).1 hh).2, hne⟩
  · intro ⟨hk, hv, v, hh, hne⟩
    exact ⟨hv, v, (h k v hv).2 ⟨hk, hh⟩, hne⟩

/-- The marked buckets are those of the other keys. -/
theorem marked_iff (hl : Loose hash t) {i : Nat} (hi : i < t.capacity) : marked t i = true ↔
    (t.buckets i).key ∈ otherKeys t := by
  rw [mem_otherKeys]
  simp only [marked, hi, decide_true, Bool.true_and, Bool.and_eq_true, bne_iff_ne, ne_eq]
  constructor
  · intro ⟨hv, hne⟩
    exact ⟨hv, _, ⟨i, hi, rfl, rfl⟩, fun h => hne h.symm⟩
  · intro ⟨hv, v, ⟨j, hj, hk, hval⟩, hne⟩
    have hij := hl.distinct i hi j hj hv hk.symm
    subst hij hval
    exact ⟨hv, fun h => hne h.symm⟩

theorem nodup_others (hl : Loose hash t) : ((others t).map (·.key)).Nodup := by
  rw [others, List.Nodup, List.pairwise_map, List.pairwise_filter, List.pairwise_map]
  refine List.pairwise_lt_range.imp_of_mem fun {i j} hi hj hij hvi _ hk => ?_
  rw [List.mem_range] at hi hj
  have := hl.distinct i hi j hj (Bool.and_eq_true_iff.1 hvi).1 hk
  omega

theorem card_otherKeys (hl : Loose hash t) : (otherKeys t).card = (others t).length := by
  rw [otherKeys, List.toFinset_card_of_nodup (nodup_others hl), List.length_map]

/-- The marks when the last bucket takes the place of one in a small table. -/
theorem marked_removeLinear (hg : Good hash t) (hs : t.capacity < 8) {i : Nat} (hi : i < t.capacity)
    (hv : isValid (t.buckets i).key = true) :
    (t.removeLinear (t.buckets i).key).2.capacity = t.capacity ∧
      (t.removeLinear (t.buckets i).key).2.occupancy = t.occupancy - 1 ∧
      marked (t.removeLinear (t.buckets i).key).2 = unmark true t.occupancy (marked t) i := by
  have hlt := (hg.small hs i hi).1 hv
  have hle := hg.occupancy_le
  rcases range_find t.buckets (t.buckets i).key t.occupancy with ⟨j, hj, hk, hfind⟩ | ⟨ha, -⟩
  · have hji := hg.distinct i hi j (by omega) hv hk.symm
    subst hji
    simp only [removeLinear, hfind]
    refine ⟨trivial, trivial, ?_⟩
    funext j
    have hlast : t.occupancy - 1 < t.capacity := by omega
    by_cases hjl : j = t.occupancy - 1
    · simp [marked, unmark, hjl, isValid, isEmpty]
    · by_cases hji : j = i
      · subst hji
        simp [marked, unmark, hjl, hi, hlast]
      · simp only [marked, unmark, if_true, Function.update_of_ne hjl, Function.update_of_ne hji]
        split
        · rfl
        · rw [Function.update_of_ne hji]
  · exact absurd rfl (ha i hlt)

/-- A bucket of a good table is removed. -/
theorem remove_bucket (hg : Good hash t) (hc : t.capacity ≤ 2 ^ 27) {i : Nat} (hi : i < t.capacity)
    (hv : isValid (t.buckets i).key = true) :
    ∃ t', t.remove hash (t.buckets i).key = some (true, t') ∧ Good hash t' ∧
      Drops (t.buckets i).key (Has t.capacity t.buckets) (Has t'.capacity t'.buckets) ∧
      (t.rebuilds hash (t.buckets i).key = true ↔ MIN_HT_CAPACITY ≤ t.capacity ∧
        (isUnderloaded (t.occupancy - 1) t.capacity = true ∨
          timeToRebuild (t.insRmCount + 1) t.capacity = true)) ∧
      (t.rebuilds hash (t.buckets i).key = false →
        t'.capacity = t.capacity ∧ t'.occupancy = t.occupancy - 1 ∧
        (MIN_HT_CAPACITY ≤ t.capacity → t'.insRmCount = t.insRmCount + 1) ∧
        marked t' = unmark (t.capacity < MIN_HT_CAPACITY) t.occupancy (marked t) i) := by
  obtain ⟨r, t', hrem, hg', hr, hdrops⟩ := remove_spec (t.buckets i).key hg (by omega) hv
  have hr' : r = true := hr.2 fun ha => ha i hi rfl
  subst hr'
  refine ⟨t', hrem, hg', hdrops, ?_⟩
  by_cases hs : t.capacity < 8
  · have hs' : t.capacity < MIN_HT_CAPACITY := hs
    rw [HyperTable.remove, if_pos hs'] at hrem
    obtain ⟨hcap, hocc, hmarks⟩ := marked_removeLinear hg hs hi hv
    rw [Option.some.inj hrem] at hcap hocc hmarks
    refine ⟨?_, fun _ => ⟨hcap, hocc, fun h => absurd hs' (Nat.not_lt.2 h), ?_⟩⟩
    · simp [rebuilds, Nat.not_le.2 hs']
    · rw [hmarks]
      simp [hs']
  · have hmin : MIN_HT_CAPACITY ≤ t.capacity := Nat.not_lt.1 hs
    have hfind : t.find hash (t.buckets i).key = some i := by
      rcases find_spec hg (by omega) hv with ⟨j, hj, hfind, hk⟩ | ⟨-, ha⟩
      · rw [hfind, hg.distinct i hi j hj hv hk.symm]
      · exact absurd rfl (ha i hi)
    have hreb : t.rebuilds hash (t.buckets i).key =
        (isUnderloaded (t.occupancy - 1) t.capacity ||
          timeToRebuild (t.insRmCount + 1) t.capacity) := by
      simp [rebuilds, hmin, hfind]
    rw [hreb, Bool.or_eq_true, Bool.or_eq_false_iff]
    refine ⟨(and_iff_right hmin).symm, fun hkept => ?_⟩
    rw [HyperTable.remove, if_neg (Nat.not_lt.2 hmin)] at hrem
    simp only [hfind, hkept.1, hkept.2, Bool.false_eq_true, if_false] at hrem
    cases hrem
    refine ⟨rfl, rfl, fun _ => rfl, ?_⟩
    funext j
    by_cases hji : j = i
    · subst hji
      simp [marked, unmark, Nat.not_lt.2 hmin, Bucket.makeTombstone, isValid, isTombstone]
    · simp [marked, unmark, Nat.not_lt.2 hmin, hji]

theorem removals_replaced {ks : List (BitVec 32)} {s' : RemovalState}
    (h : removals hash ⟨t, true⟩ ks = some s') : ks = [] ∧ s' = ⟨t, true⟩ := by
  cases ks with
  | nil =>
    cases h
    exact ⟨rfl, rfl⟩
  | cons k ks => simp [removals, removeAt] at h

/-- A removal that returns was at a bucket of the table. -/
theorem removals_cons {k : BitVec 32} {ks : List (BitVec 32)} {s' : RemovalState}
    (h : removals hash ⟨t, false⟩ (k :: ks) = some s') : 0 ≤ k.toInt ∧ k.toInt.toNat < t.capacity ∧
      ∃ r t', t.remove hash (t.buckets k.toInt.toNat).key = some (r, t') ∧
        removals hash ⟨t', t.rebuilds hash (t.buckets k.toInt.toNat).key⟩ ks = some s' := by
  simp only [removals, List.foldlM_cons, Option.bind_eq_bind, Option.bind_eq_some_iff,
    removeAt] at h
  obtain ⟨s, hs, h⟩ := h
  split at hs
  · cases hs
  · next hin =>
    obtain ⟨⟨r, t'⟩, hrem, heq⟩ := Option.map_eq_some_iff.1 hs
    cases heq
    simp only [Bool.false_eq_true, false_or, not_or] at hin
    exact ⟨by omega, by omega, r, t', hrem, h⟩

theorem removals_cons_eq {k : BitVec 32} {ks : List (BitVec 32)} {r : Bool} (h0 : 0 ≤ k.toInt)
    (hk : k.toInt.toNat < t.capacity)
    (hrem : t.remove hash (t.buckets k.toInt.toNat).key = some (r, t')) :
    removals hash ⟨t, false⟩ (k :: ks) =
    removals hash ⟨t', t.rebuilds hash (t.buckets k.toInt.toNat).key⟩ ks := by
  have hin : ¬ (False ∨ k.toInt < 0 ∨ (t.capacity : Int) ≤ k.toInt) := by
    rw [false_or, not_or]
    exact ⟨Int.not_lt.2 h0, by omega⟩
  simp only [removals, List.foldlM_cons, removeAt, Bool.false_eq_true, if_neg hin, hrem]
  rfl

/-- Each removal takes at most one key. -/
theorem removals_le (ks : List (BitVec 32)) {t : HyperTable ReducerBase} {s' : RemovalState}
    (hl : Loose hash t) (hc : t.capacity ≤ 2 ^ 27) (h : removals hash ⟨t, false⟩ ks = some s') :
    (∀ k v, isValid k = true → Has s'.table.capacity s'.table.buckets k v →
      Has t.capacity t.buckets k v) ∧
      (otherKeys t).card ≤ (otherKeys s'.table).card + ks.length := by
  induction ks generalizing t with
  | nil =>
    cases h
    exact ⟨fun _ _ _ hh => hh, Nat.le_refl _⟩
  | cons k ks ih =>
    obtain ⟨h0, hk, r, t', hrem, h⟩ := removals_cons h
    obtain ⟨hdrops, hkept⟩ := hl.remove hc hrem
    have hcard : (otherKeys t).card ≤ (otherKeys t').card + 1 := by
      rw [otherKeys_of_drops hdrops]
      exact Nat.sub_le_iff_le_add.1 Finset.pred_card_le_card_erase
    rw [List.length_cons]
    cases hreb : t.rebuilds hash (t.buckets k.toInt.toNat).key with
    | true =>
      rw [hreb] at h
      obtain ⟨hks, hs'⟩ := removals_replaced h
      subst hks hs'
      exact ⟨fun k v hv hh => ((hdrops k v hv).1 hh).2, by simpa using hcard⟩
    | false =>
      rw [hreb] at h
      obtain ⟨hl', hcap⟩ := hkept hreb
      obtain ⟨hhas, hle⟩ := ih hl' (by rw [hcap]; exact hc) h
      exact ⟨fun k v hv hh => ((hdrops k v hv).1 (hhas k v hv hh)).2, by omega⟩

/-- Removals that take all the other keys, and no leftmost one, hit. -/
theorem hits_of_removals (ks : List (BitVec 32)) {t : HyperTable ReducerBase} {s' : RemovalState}
    (hg : Good hash t)
    (hc : t.capacity ≤ 2 ^ 27) (h : removals hash ⟨t, false⟩ ks = some s')
    (hnone : otherKeys s'.table = ∅)
    (hleft : ∀ (k : Key) (v : ReducerBase), isValid k = true → v.view = k →
      Has t.capacity t.buckets k v → Has s'.table.capacity s'.table.buckets k v)
    (hcard : ks.length = (otherKeys t).card) :
    Hits (t.capacity < MIN_HT_CAPACITY) t.occupancy (marked t) (ks.map BitVec.toInt) ∧
      (MIN_HT_CAPACITY ≤ t.capacity → ∀ j, 0 < j → j < ks.length →
        isUnderloaded (t.occupancy - j) t.capacity = false ∧
        timeToRebuild (t.insRmCount + j) t.capacity = false) := by
  induction ks generalizing t with
  | nil => exact ⟨trivial, fun _ j _ hj => absurd hj (Nat.not_lt_zero j)⟩
  | cons k ks ih =>
    obtain ⟨h0, hk, r, t', hrem, h⟩ := removals_cons h
    obtain ⟨hdrops, hkept⟩ := hg.loose.remove hc hrem
    have hother := otherKeys_of_drops hdrops
    -- What the rest takes away, after a removal that returns.
    have hrest : (∀ k v, isValid k = true → Has s'.table.capacity s'.table.buckets k v →
        Has t'.capacity t'.buckets k v) ∧ (otherKeys t').card ≤ ks.length := by
      cases hreb : t.rebuilds hash (t.buckets k.toInt.toNat).key with
      | true =>
        rw [hreb] at h
        obtain ⟨hks, hs'⟩ := removals_replaced h
        subst hks hs'
        exact ⟨fun _ _ _ hh => hh, by simp [hnone]⟩
      | false =>
        rw [hreb] at h
        obtain ⟨hl', hcap⟩ := hkept hreb
        obtain ⟨hhas, hle⟩ := removals_le ks hl' (by rw [hcap]; exact hc) h
        rw [hnone, Finset.card_empty, Nat.zero_add] at hle
        exact ⟨hhas, hle⟩
    rw [List.length_cons] at hcard
    have hmem : (t.buckets k.toInt.toNat).key ∈ otherKeys t := by
      by_contra hn
      rw [hother, Finset.erase_eq_of_notMem hn] at hrest
      omega
    have hmark := (marked_iff hg.loose hk).2 hmem
    have hv : isValid (t.buckets k.toInt.toNat).key = true := (mem_otherKeys.1 hmem).1
    obtain ⟨t₁, hrem₁, hg', -, hreb, hstep⟩ := remove_bucket hg hc hk hv
    rw [hrem] at hrem₁
    cases hrem₁
    have hcard' : ks.length = (otherKeys t').card := by
      rw [hother, Finset.card_erase_of_mem hmem]
      omega
    cases hks : ks with
    | nil =>
      exact ⟨⟨h0, hmark, trivial⟩, fun _ j h₁ h₂ => absurd h₂ (by simpa using Nat.ne_of_gt h₁)⟩
    | cons k' ks' =>
      have hrebf : t.rebuilds hash (t.buckets k.toInt.toNat).key = false := by
        cases hr : t.rebuilds hash (t.buckets k.toInt.toNat).key with
        | false => rfl
        | true =>
          rw [hr] at h
          have := (removals_replaced h).1
          rw [hks] at this
          cases this
      rw [hrebf] at h
      obtain ⟨hcap, hocc, hcnt, hmarks⟩ := hstep hrebf
      have hleft' : ∀ (k : Key) (v : ReducerBase), isValid k = true → v.view = k →
          Has t'.capacity t'.buckets k v →
          Has s'.table.capacity s'.table.buckets k v := fun k v hvk hview hh =>
        hleft k v hvk hview ((hdrops k v hvk).1 hh).2
      obtain ⟨hhits, hkept'⟩ := ih hg' (by rw [hcap]; exact hc) h hleft' hcard'
      rw [← hks]
      rw [hcap, hocc, hmarks] at hhits
      refine ⟨⟨h0, hmark, hhits⟩, fun hmin j h₁ h₂ => ?_⟩
      rw [hcap, hocc, hcnt hmin] at hkept'
      rcases Nat.lt_or_ge 1 j with hj | hj
      · have := hkept' hmin (j - 1) (by omega) (by rw [List.length_cons] at h₂; omega)
        rw [show t.occupancy - 1 - (j - 1) = t.occupancy - j by omega,
          show t.insRmCount + 1 + ((j - 1 : Nat) : Int) = t.insRmCount + j by omega] at this
        exact this
      · have h1 : j = 1 := by omega
        subst h1
        have hn := mt hreb.2 (by rw [hrebf]; simp)
        simp only [hmin, true_and, not_or, Bool.not_eq_true] at hn
        exact hn

/-- Removals that hit take the other keys and leave the rest. -/
theorem removals_of_hits (ks : List (BitVec 32)) {t : HyperTable ReducerBase} (hg : Good hash t)
    (hc : t.capacity ≤ 2 ^ 27)
    (hhits : Hits (t.capacity < MIN_HT_CAPACITY) t.occupancy (marked t) (ks.map BitVec.toInt))
    (hkept : MIN_HT_CAPACITY ≤ t.capacity → ∀ j, 0 < j → j < ks.length →
      isUnderloaded (t.occupancy - j) t.capacity = false ∧
      timeToRebuild (t.insRmCount + j) t.capacity = false) :
    ∃ s', removals hash ⟨t, false⟩ ks = some s' ∧ Good hash s'.table ∧
      (∀ k v, isValid k = true → Has s'.table.capacity s'.table.buckets k v →
        Has t.capacity t.buckets k v) ∧
      (∀ (k : Key) (v : ReducerBase), isValid k = true → v.view = k → Has t.capacity t.buckets k v →
        Has s'.table.capacity s'.table.buckets k v) ∧
      (otherKeys s'.table).card + ks.length = (otherKeys t).card := by
  induction ks generalizing t with
  | nil => exact ⟨_, rfl, hg, fun _ _ _ hh => hh, fun _ _ _ _ hh => hh, rfl⟩
  | cons k ks ih =>
    obtain ⟨h0, hmark, hrest⟩ := hhits
    have hk : k.toInt.toNat < t.capacity := by
      simp only [marked, Bool.and_eq_true, decide_eq_true_iff] at hmark
      exact hmark.1.1
    have hmem := (marked_iff hg.loose hk).1 hmark
    have hv := (mem_otherKeys.1 hmem).1
    obtain ⟨t', hrem, hg', hdrops, hreb, hstep⟩ := remove_bucket hg hc hk hv
    have hother := otherKeys_of_drops hdrops
    have hcard : (otherKeys t').card + 1 = (otherKeys t).card := by
      rw [hother, Finset.card_erase_add_one hmem]
    -- The leftmost entries are not the one removed.
    have hleft : ∀ (k' : Key) (v : ReducerBase), isValid k' = true → v.view = k' →
        Has t.capacity t.buckets k' v →
        Has t'.capacity t'.buckets k' v := fun k' v hv' hview hh => by
      refine (hdrops k' v hv').2 ⟨fun he => ?_, hh⟩
      obtain ⟨-, w, hw, hne⟩ := mem_otherKeys.1 hmem
      rw [← he] at hw hne
      rw [hg.has_unique hv' hh hw] at hview
      exact hne hview
    rw [removals_cons_eq h0 hk hrem, List.length_cons]
    cases hks : ks with
    | nil =>
      exact ⟨_, rfl, hg', fun k v hv hh => ((hdrops k v hv).1 hh).2, hleft, by simpa using hcard⟩
    | cons k' ks' =>
      have hrebf : t.rebuilds hash (t.buckets k.toInt.toNat).key = false := by
        rw [Bool.eq_false_iff, Ne, hreb]
        intro ⟨hmin, h⟩
        have := hkept hmin 1 Nat.one_pos (by simp [hks])
        rw [Int.natCast_one, Bool.eq_false_iff, Bool.eq_false_iff] at this
        exact h.elim this.1 this.2
      obtain ⟨hcap, hocc, hcnt, hmarks⟩ := hstep hrebf
      obtain ⟨s', hs', hgood, hhas, hkeep, hc'⟩ :=
        ih hg' (by rw [hcap]; exact hc) (by rw [hcap, hocc, hmarks]; exact hrest)
          fun hmin j h₁ h₂ => by
            rw [hcap] at hmin ⊢
            rw [hocc, hcnt hmin]
            have := hkept hmin (j + 1) (by omega) (by simpa using h₂)
            rw [show t.occupancy - (j + 1) = t.occupancy - 1 - j by omega,
              show t.insRmCount + ((j + 1 : Nat) : Int) = t.insRmCount + 1 + j by omega] at this
            exact this
      rw [← hks, hrebf]
      exact ⟨s', hs', hgood, fun k v hv hh => ((hdrops k v hv).1 (hhas k v hv hh)).2,
        fun k v hv hview hh => hkeep k v hv hview (hleft k v hv hview hh), by omega⟩

/-! ## Reducing the views -/

variable {m : Key → Option ReducerBase}

theorem leftmost_eq_some {k : Key} {v : ReducerBase} : leftmost m k = some v ↔
    m k = some v ∧ v.view = k := by
  simp [leftmost, Option.filter_eq_some_iff]

theorem scanViews_eq (t : HyperTable ReducerBase) : scanViews t = {
    holdsLeftmostViews :=
      ((List.range t.capacity).map t.buckets).any fun b => isValid b.key && b.key == b.value.view
    events := (others t).flatMap fun b => reduceInto b.value.reduceFn b.key b.value.view
    keysToRemove := (others t).map fun b => b.key.setWidth 32 } := by
  rw [scanViews, foldl_scanStep]
  simp [others]

theorem holdsLeftmostViews_iff (h : Holds hash t m) :
    (scanViews t).holdsLeftmostViews = true ↔ ∃ k v, isValid k = true ∧ leftmost m k = some v := by
  rw [scanViews_eq]
  simp only [List.any_map, List.any_eq_true, List.mem_range, Function.comp_apply,
    Bool.and_eq_true, beq_iff_eq]
  constructor
  · intro ⟨i, hi, hv, hk⟩
    exact ⟨_, _, hv, leftmost_eq_some.2 ⟨(h.has _ _ hv).1 ⟨i, hi, rfl, rfl⟩, hk.symm⟩⟩
  · intro ⟨k, v, hv, hl⟩
    obtain ⟨hm, hview⟩ := leftmost_eq_some.1 hl
    obtain ⟨i, hi, hk, hval⟩ := (h.has k v hv).2 hm
    exact ⟨i, hi, by rw [hk, hv], by rw [hk, hval, hview]⟩

/-- The views that are not leftmost are reduced, each once. -/
theorem effects_scanViews (h : Holds hash t m) : ∃ keys : List Key, keys.Nodup ∧
    (∀ k, k ∈ keys ↔ isValid k = true ∧ ∃ v, m k = some v ∧ v.view ≠ k) ∧
    (scanViews t).events = keys.flatMap (foldEvents m) := by
  refine ⟨(others t).map (·.key), nodup_others h.good.loose, fun k => ?_, ?_⟩
  · rw [← List.mem_toFinset, ← otherKeys, mem_otherKeys]
    exact and_congr_right fun hv => exists_congr fun v => by rw [h.has k v hv]
  · rw [scanViews_eq, List.flatMap_map]
    refine List.flatMap_congr fun b hb => ?_
    simp only [others, List.mem_filter, List.mem_map, List.mem_range, Bool.and_eq_true] at hb
    obtain ⟨⟨i, hi, hbi⟩, hv, -⟩ := hb
    have hm : m b.key = some b.value := (h.has _ _ hv).1 ⟨i, hi, by rw [hbi], by rw [hbi]⟩
    simp only [foldEvents, hm]

/-- **Only leftmost views are left** exactly if there are none, or if the keys
to remove, cut to 32 bits, happen to be the indices of the right buckets. -/
theorem leavesLeftmost_iff (h : Holds hash t m) (hc : t.capacity ≤ 2 ^ 27) :
    (∃ r, reduceLocalViews hash ⟨none, some t⟩ = some r ∧ LeavesLeftmost hash m r) ↔
      (∀ k, isValid k = true → leftmost m k = none) ∨ RemovalsHit t := by
  have heffects := effects_scanViews h
  have hcard := card_otherKeys h.good.loose
  have hkeys : (scanViews t).keysToRemove.map BitVec.toInt = indices t := by
    rw [scanViews_eq, List.map_map]
    rfl
  have hlen : (scanViews t).keysToRemove.length = (indices t).length := by
    rw [← hkeys, List.length_map]
  have hlen' : (scanViews t).keysToRemove.length = (otherKeys t).card := by
    rw [hcard, hlen, indices, List.length_map]
  cases hl : (scanViews t).holdsLeftmostViews with
  | false =>
    have hnone : ∀ k, isValid k = true → leftmost m k = none := fun k hk => by
      cases hm : leftmost m k with
      | none => rfl
      | some v =>
        rw [(holdsLeftmostViews_iff h).2 ⟨k, v, hk, hm⟩] at hl
        cases hl
    refine iff_of_true ⟨({ parent := none, head := none }, (scanViews t).events), ?_, heffects,
      hnone, ?_⟩ (.inl hnone)
    · simp [reduceLocalViews, hl]
    · exact iff_of_true rfl hnone
  | true =>
    obtain ⟨k₀, v₀, hv₀, hl₀⟩ := (holdsLeftmostViews_iff h).1 hl
    have hsome : ¬ ∀ k, isValid k = true → leftmost m k = none := fun hn => by
      rw [hn k₀ hv₀] at hl₀
      cases hl₀
    have hrun :
        reduceLocalViews hash ⟨none, some t⟩ =
        (removals hash ⟨t, false⟩ (scanViews t).keysToRemove).map
        fun r => ({ parent := none, head := some r.table }, (scanViews t).events) := by
      simp [reduceLocalViews, hl]
    rw [hrun, or_iff_right hsome]
    constructor
    · intro ⟨r, hr, hleaves⟩
      obtain ⟨s', hs', heq⟩ := Option.map_eq_some_iff.1 hr
      subst heq
      have hstands : Holds hash s'.table (leftmost m) := hleaves.table
      have hempty : otherKeys s'.table = ∅ := by
        refine Finset.eq_empty_of_forall_notMem fun k hk => ?_
        obtain ⟨hv, v, hh, hne⟩ := mem_otherKeys.1 hk
        exact hne (leftmost_eq_some.1 ((hstands.has k v hv).1 hh)).2
      obtain ⟨hhits, hkept⟩ := hits_of_removals _ h.good hc hs' hempty
        (fun k v hv hview hh => (hstands.has k v hv).2
          (leftmost_eq_some.2 ⟨(h.has k v hv).1 hh, hview⟩)) hlen'
      rw [hkeys] at hhits
      rw [hlen] at hkept
      exact ⟨hhits, hkept⟩
    · intro hit
      obtain ⟨s', hs', hg', hhas, hkeep, hc'⟩ :=
        removals_of_hits _ h.good hc (by rw [hkeys]; exact hit.hits)
          (by rw [hlen]; exact hit.kept)
      have hempty : otherKeys s'.table = ∅ := Finset.card_eq_zero.1 (by omega)
      have hstands : Holds hash s'.table (leftmost m) := by
        refine ⟨hg', fun k v hv => ?_⟩
        rw [leftmost_eq_some]
        constructor
        · intro hh
          refine ⟨(h.has k v hv).1 (hhas k v hv hh), ?_⟩
          by_contra hne
          have : k ∈ otherKeys s'.table := mem_otherKeys.2 ⟨hv, v, hh, hne⟩
          rw [hempty] at this
          exact absurd this (Finset.notMem_empty k)
        · intro ⟨hm, hview⟩
          exact hkeep k v hv hview ((h.has k v hv).2 hm)
      exact ⟨({ parent := none, head := some s'.table }, (scanViews t).events), by rw [hs']; rfl,
        heffects, hstands, iff_of_false (by simp) hsome⟩

/-- A leftmost view and another, whose key is the index of its bucket. -/
def keyAtIndex : HyperTable ReducerBase :=
  (oneView 16#64).insertLinear { key := 1#64, value := ⟨64#64, 1⟩ }

theorem leavesLeftmost_iff_keyAtIndex :
    ∃ r, reduceLocalViews HyperTable.hash ⟨none, some keyAtIndex⟩ = some r ∧
      LeavesLeftmost HyperTable.hash
        (Function.update (Function.update (fun _ => none) 16#64 (some ⟨16#64, 1⟩)) 1#64
          (some ⟨64#64, 1⟩)) r := by
  have hholds : Holds HyperTable.hash keyAtIndex _ :=
    (holds_oneView HyperTable.hash 16#64).insertLinear
      (b := { key := 1#64, value := (⟨64#64, 1⟩ : ReducerBase) }) (by decide) (by decide) rfl
  have hindices : indices keyAtIndex = [1] := by decide
  refine (leavesLeftmost_iff hholds (by decide)).2 (.inr ⟨?_, ?_⟩)
  · rw [hindices]
    exact ⟨by decide, by decide, trivial⟩
  · intro h
    exact absurd h (by decide)

/-- The key 32 is no index of a table of four. -/
theorem not_leavesLeftmost : ¬ ∃ r, reduceLocalViews HyperTable.hash
      ⟨none, some ((oneView 16#64).insertLinear { key := 32#64, value := ⟨64#64, 1⟩ })⟩ = some r ∧
    LeavesLeftmost HyperTable.hash
    (Function.update (Function.update (fun _ => none) 16#64 (some ⟨16#64, 1⟩)) 32#64
      (some ⟨64#64, 1⟩)) r := by
  intro ⟨r, hr, _⟩
  have hnone : (reduceLocalViews HyperTable.hash
      ⟨none, some ((oneView 16#64).insertLinear { key := 32#64, value := ⟨64#64, 1⟩ })⟩).isNone =
      true := by
    decide
  rw [hr] at hnone
  cases hnone

end

end Cilksan
