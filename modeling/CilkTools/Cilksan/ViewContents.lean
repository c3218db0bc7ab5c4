/-
What the views of a table hold. Merging two tables and reducing one into the
leftmost views (`reducers.cpp`) keep, for each reducer, the fold of all its
views in order.
-/
import CilkTools.Cilksan.Continuations
import CilkTools.PartialFolds

namespace Cilksan

/-- The functions the program passes for its reducers, and what they do to the
contents of views. Only a right identity is needed. -/
structure Reducers (M : Type) where
  reduceFn : Key → Nat
  reduce : Nat → M → M → M
  identity : Key → M
  assoc : ∀ k a b c, reduce (reduceFn k) (reduce (reduceFn k) a b) c =
    reduce (reduceFn k) a (reduce (reduceFn k) b c)
  reduce_identity : ∀ k a, reduce (reduceFn k) a (identity k) = a

namespace Reducers

variable {M : Type} (R : Reducers M)

def op (k : Key) : M → M → M := R.reduce (R.reduceFn k)

/-- What an event does to the views that are allocated; there is no result if
it uses another address. -/
def runEvent (mem : Key → Option M) : ViewEvent → Option (Key → Option M)
  | .reduce fn left right => do
    let x ← mem left
    let y ← mem right
    return Function.update mem left (some (R.reduce fn x y))
  | .free view => do
    let _ ← mem view
    return Function.update mem view none
  | .markFree _ => some mem

def runEvents (mem : Key → Option M) (events : List ViewEvent) : Option (Key → Option M) :=
  events.foldlM R.runEvent mem

end Reducers

/-! ## The entries of a table -/

namespace HyperTable

section

variable {V : Type} {hash : Key → Nat} {t : HyperTable V} {m : Key → Option V} {key : Key} {v : V}

/-- What the table has for a key. -/
def entries (t : HyperTable V) (key : Key) : Option V :=
  if isValid key then (((List.range t.capacity).map t.buckets).find? (·.key == key)).map
    (·.value) else none

theorem Good.entries_eq_some (hg : Good hash t) :
    t.entries key = some v ↔ isValid key = true ∧ Has t.capacity t.buckets key v := by
  rw [entries]
  cases hv : isValid key with
  | false => simp
  | true =>
    rw [if_pos rfl, Option.map_eq_some_iff]
    refine ⟨fun h => ⟨rfl, ?_⟩, fun h => ?_⟩
    · obtain ⟨b, hb, hval⟩ := h
      obtain ⟨i, hi, hib⟩ := List.mem_map.1 (List.mem_of_find?_eq_some hb)
      have hk : b.key = key := eq_of_beq (List.find?_some hb :)
      exact ⟨i, List.mem_range.1 hi, by rw [hib, hk], by rw [hib, hval]⟩
    · obtain ⟨-, i, hi, hk, hval⟩ := h
      have hsome : (((List.range t.capacity).map t.buckets).find? (·.key == key)).isSome = true :=
        List.find?_isSome.2 ⟨_, List.mem_map_of_mem (List.mem_range.2 hi), beq_of_eq hk⟩
      obtain ⟨b, hb⟩ := Option.isSome_iff_exists.1 hsome
      obtain ⟨j, hj, hjb⟩ := List.mem_map.1 (List.mem_of_find?_eq_some hb)
      have hkj : b.key = key := eq_of_beq (List.find?_some hb :)
      have hij := hg.distinct i hi j (List.mem_range.1 hj) (by rw [hk, hv]) (by rw [hk, hjb, hkj])
      exact ⟨b, hb, by rw [← hjb, ← hij, hval]⟩

theorem Good.holds (hg : Good hash t) : Holds hash t t.entries :=
  ⟨hg, fun k v hk => by rw [hg.entries_eq_some, and_iff_right hk]⟩

theorem isValid_of_entries (h : t.entries key = some v) : isValid key = true := by
  by_contra hv
  rw [entries, if_neg hv] at h
  cases h

theorem Holds.entries_eq (h : Holds hash t m) (hm : ∀ k, isValid k = false → m k = none) :
    t.entries = m := by
  funext k
  ext v
  rw [h.good.entries_eq_some]
  cases hv : isValid k with
  | false => simp [hm k hv]
  | true => rw [and_iff_right rfl, h.has k v hv]

variable [Inhabited V]

theorem entries_empty : (empty : HyperTable V).entries = fun _ => none :=
  (Holds.empty HyperTable.hash).entries_eq fun _ _ => rfl

theorem Good.find_entries (hg : Good hash t) (hc : t.capacity < 2 ^ 27) (hv : isValid key = true) :
    t.entries key = (t.find hash key).map fun i => (t.buckets i).value := by
  have hfind := (hg.holds.isMap hc).find key hv
  cases hi : t.find hash key with
  | none =>
    rw [hi] at hfind
    exact hfind
  | some i =>
    rw [hi] at hfind
    exact hfind.2.2

theorem Good.insert_entries {b : Bucket V} (hg : Good hash t) (hc : t.capacity < 2 ^ 27)
    (hv : isValid b.key = true) (hok : InsertOk hash t b.key) :
    ∃ t', t.insert hash b = some (true, t') ∧ Good hash t' ∧
      t'.entries = Function.update t.entries b.key (some b.value) := by
  obtain ⟨t', ht', hg', hput⟩ := insert_spec hg hc hv hok
  refine ⟨t', ht', hg', (hg.holds.puts hg' hput).entries_eq fun k hk => ?_⟩
  have hne : k ≠ b.key := fun h => by
    rw [h, hv] at hk
    cases hk
  rw [Function.update_of_ne hne, entries, hk]
  rfl

end

end HyperTable

open HyperTable

/-- What a table that may be null holds. -/
def held (t : Option (HyperTable ReducerBase)) : Key → Option ReducerBase :=
  fun k => t.bind (·.entries k)

theorem isValid_of_held {t : Option (HyperTable ReducerBase)} {k : Key} {b : ReducerBase}
    (h : held t k = some b) : isValid k = true := by
  obtain ⟨t, -, h⟩ := Option.bind_eq_some_iff.1 h
  exact isValid_of_entries h

theorem stands_held {hash : Key → Nat} {t : Option (HyperTable ReducerBase)}
    (hg : ∀ u ∈ t, Good hash u) : Stands hash t (held t) := by
  cases t with
  | none => exact fun _ _ => rfl
  | some t => exact (hg t rfl).holds

/-- The map is the table's. -/
theorem Stands.held_eq {hash : Key → Nat} {t : Option (HyperTable ReducerBase)}
    {m : Key → Option ReducerBase}
    (h : Stands hash t m) (hm : ∀ k, isValid k = false → m k = none) : held t = m := by
  cases t with
  | none =>
    funext k
    cases hv : isValid k with
    | false => exact (hm k hv).symm
    | true => exact (h k hv).symm
  | some t => exact Holds.entries_eq h hm

/-! ## What the views hold -/

section

variable {M : Type} {R : Reducers M} {mem mem' : Key → Option M} {m m' : Key → Option ReducerBase}
  {k v : Key} {b : ReducerBase} {x y : M}

/-- What the view of a reducer holds. -/
def sees (mem : Key → Option M) (m : Key → Option ReducerBase) (k : Key) : Option M :=
  (m k).bind fun b => mem b.view

/-- The address is that of a view. -/
def HasView (m : Key → Option ReducerBase) (v : Key) : Prop := ∃ k b, m k = some b ∧ b.view = v

/-- The views are allocated, have the functions of their reducers, and no two
are the same. -/
structure Stored (R : Reducers M) (mem : Key → Option M) (m : Key → Option ReducerBase) : Prop where
  fn : ∀ {k b}, m k = some b → b.reduceFn = R.reduceFn k
  live : ∀ {k b}, m k = some b → ∃ x, mem b.view = some x
  inj : ∀ {k k' b b'}, m k = some b → m k' = some b' → b.view = b'.view → k = k'

/-- Only the views count. -/
theorem sees_congr (h : ∀ v, HasView m v → mem' v = mem v) (k : Key) :
    sees mem' m k = sees mem m k := by
  rw [sees, sees]
  cases hm : m k with
  | none => rfl
  | some b => exact h _ ⟨k, b, hm, rfl⟩

theorem HasView.of_update (h : HasView (Function.update m k (some b)) v) :
    v = b.view ∨ HasView m v := by
  obtain ⟨k', b', hm, hv⟩ := h
  by_cases hk : k' = k
  · rw [hk, Function.update_self] at hm
    cases hm
    exact .inl hv.symm
  · rw [Function.update_of_ne hk] at hm
    exact .inr ⟨k', b', hm, hv⟩

/-- The other entries stay. -/
theorem HasView.update (h : HasView m v) (k : Key) (b : ReducerBase) :
    HasView (Function.update m k (some b)) v ∨ ∃ d, m k = some d ∧ d.view = v := by
  obtain ⟨k', b', hm, hv⟩ := h
  by_cases hk : k' = k
  · exact .inr ⟨b', hk ▸ hm, hv⟩
  · exact .inl ⟨k', b', (Function.update_of_ne hk ..).trans hm, hv⟩

theorem not_hasView_none : ¬ HasView (fun _ => none) v := fun h => by
  obtain ⟨k, b, hm, -⟩ := h
  cases hm

namespace Stored

theorem empty : Stored R mem (fun _ => none) := ⟨(nomatch ·), (nomatch ·), (nomatch ·, ·)⟩

theorem congr (hs : Stored R mem m) (h : ∀ v, HasView m v → mem' v = mem v) : Stored R mem' m :=
  ⟨hs.fn, fun hm => by rw [h _ ⟨_, _, hm, rfl⟩]; exact hs.live hm, hs.inj⟩

/-- The view of another reducer is another. -/
theorem view_ne (hs : Stored R mem m) (hb : m k = some b) {k' : Key} {b' : ReducerBase}
    (hb' : m k' = some b') (hk : k' ≠ k) : b'.view ≠ b.view := fun h => hk (hs.inj hb' hb h)

/-- A reducer gets a view that is no other's, and the others' hold what they
held. -/
theorem update (hs : Stored R mem m) (mem' : Key → Option M) (hfn : b.reduceFn = R.reduceFn k)
    (hx : mem' b.view = some x)
    (hother : ∀ k' b', k' ≠ k → m k' = some b' → b'.view ≠ b.view ∧ mem' b'.view = mem b'.view) :
    Stored R mem' (Function.update m k (some b)) ∧
      sees mem' (Function.update m k (some b)) = Function.update (sees mem m) k (some x) := by
  have hcases : ∀ {k' b'}, Function.update m k (some b) k' = some b' →
    k' = k ∧ b' = b ∨ k' ≠ k ∧ m k' = some b' := fun {k' b'} h => by
      by_cases hk : k' = k
      · rw [hk, Function.update_self] at h
        cases h
        exact .inl ⟨hk, rfl⟩
      · rw [Function.update_of_ne hk] at h
        exact .inr ⟨hk, h⟩
  refine ⟨⟨fun h => ?_, fun h => ?_, fun h h' heq => ?_⟩, funext fun k' => ?_⟩
  · rcases hcases h with ⟨hk, hb⟩ | ⟨-, hm⟩
    · rw [hk, hb, hfn]
    · exact hs.fn hm
  · rcases hcases h with ⟨-, hb⟩ | ⟨hk, hm⟩
    · exact ⟨x, by rw [hb, hx]⟩
    · rw [(hother _ _ hk hm).2]
      exact hs.live hm
  · rcases hcases h with ⟨hk, hb⟩ | ⟨hk, hm⟩
    · rcases hcases h' with ⟨hk', -⟩ | ⟨hk', hm'⟩
      · rw [hk, hk']
      · exact absurd (by rw [← heq, hb]) (hother _ _ hk' hm').1
    · rcases hcases h' with ⟨hk', hb'⟩ | ⟨hk', hm'⟩
      · exact absurd (by rw [heq, hb']) (hother _ _ hk hm).1
      · exact hs.inj hm hm' heq
  · by_cases hk : k' = k
    · rw [hk, sees, Function.update_self, Function.update_self, Option.bind_some, hx]
    · rw [sees, Function.update_of_ne hk, Function.update_of_ne hk, sees]
      cases hm : m k' with
      | none => rfl
      | some b' => exact (hother _ _ hk hm).2

end Stored

/-! ## Reductions -/

theorem Reducers.runEvents_append (R : Reducers M) (mem : Key → Option M)
    (es es' : List ViewEvent) :
    R.runEvents mem (es ++ es') = (R.runEvents mem es).bind fun mem => R.runEvents mem es' := by
  simp [Reducers.runEvents, List.foldlM_append]

/-- One reduction, and what it frees. -/
theorem runEvents_reduceInto (R : Reducers M) (fn : Nat) {left right : Key} (hl : mem left = some x)
    (hr : mem right = some y) (hne : right ≠ left) : R.runEvents mem (reduceInto fn left right) =
      some (Function.update (Function.update mem left (some (R.reduce fn x y))) right none) := by
  simp [Reducers.runEvents, Reducers.runEvent, reduceInto, hl, hr, Function.update_of_ne hne]

/-- One view of each reducer goes to another, and no view is used twice. -/
structure Separate (left right : Key → Key) (keys : List Key) : Prop where
  nodup : keys.Nodup
  left_inj : ∀ k ∈ keys, ∀ k' ∈ keys, left k = left k' → k = k'
  right_inj : ∀ k ∈ keys, ∀ k' ∈ keys, right k = right k' → k = k'
  apart : ∀ k ∈ keys, ∀ k' ∈ keys, right k ≠ left k'

/-- What the reductions leave. -/
structure Reduced (R : Reducers M) (left right : Key → Key) (keys : List Key)
    (mem mem' : Key → Option M) : Prop where
  freed : ∀ k ∈ keys, mem' (right k) = none
  kept : ∀ k ∈ keys, ∀ x y, mem (left k) = some x → mem (right k) = some y →
    mem' (left k) = some (R.op k x y)
  frame : ∀ v, (∀ k ∈ keys, v ≠ left k ∧ v ≠ right k) → mem' v = mem v

theorem runEvents_reductions (R : Reducers M) {left right : Key → Key} {keys : List Key}
    (mem : Key → Option M)
    (hd : Separate left right keys) (hlive : ∀ k ∈ keys, ∃ x y, mem (left k) = some x ∧
      mem (right k) = some y) :
    ∃ mem', R.runEvents mem (keys.flatMap fun k => reduceInto (R.reduceFn k) (left k)
      (right k)) = some mem' ∧ Reduced R left right keys mem mem' := by
  induction keys generalizing mem with
  | nil => exact ⟨mem, rfl, nofun, nofun, fun _ _ => rfl⟩
  | cons k keys ih =>
    obtain ⟨hk, hnodup⟩ := List.nodup_cons.1 hd.nodup
    obtain ⟨x, y, hx, hy⟩ := hlive k (.head _)
    have hne : ∀ k' ∈ keys, (left k' ≠ left k ∧ left k' ≠ right k) ∧ right k' ≠ left k ∧
        right k' ≠ right k := fun k' hk' => by
      have hkk : k' ≠ k := fun h => hk (h ▸ hk')
      exact ⟨⟨fun h => hkk (hd.left_inj k' (.tail _ hk') k (.head _) h),
          (hd.apart k (.head _) k' (.tail _ hk')).symm⟩,
        hd.apart k' (.tail _ hk') k (.head _),
        fun h => hkk (hd.right_inj k' (.tail _ hk') k (.head _) h)⟩
    have hrun := runEvents_reduceInto R (R.reduceFn k) hx hy (hd.apart k (.head _) k (.head _))
    generalize hmem₁ :
      Function.update (Function.update mem (left k) (some (R.reduce (R.reduceFn k) x y)))
      (right k) none = mem₁ at hrun
    have hsame : ∀ v, v ≠ left k → v ≠ right k → mem₁ v = mem v := fun v h₁ h₂ => by
      rw [← hmem₁, Function.update_of_ne h₂, Function.update_of_ne h₁]
    have hl : mem₁ (left k) = some (R.op k x y) := by
      rw [← hmem₁, Function.update_of_ne (hd.apart k (.head _) k (.head _)).symm,
        Function.update_self]
      rfl
    have hr : mem₁ (right k) = none := by rw [← hmem₁, Function.update_self]
    obtain ⟨mem', hrun', hred⟩ :=
      ih mem₁ ⟨hnodup, fun a ha b hb => hd.left_inj a (.tail _ ha) b (.tail _ hb),
      fun a ha b hb => hd.right_inj a (.tail _ ha) b (.tail _ hb),
      fun a ha b hb => hd.apart a (.tail _ ha) b (.tail _ hb)⟩ fun k' hk' => by
        obtain ⟨⟨h₁, h₂⟩, h₃, h₄⟩ := hne k' hk'
        rw [hsame _ h₁ h₂, hsame _ h₃ h₄]
        exact hlive k' (.tail _ hk')
    refine ⟨mem', ?_, List.forall_mem_cons.2 ⟨?_, hred.freed⟩,
      List.forall_mem_cons.2 ⟨fun x' y' hx' hy' => ?_, fun k' hk' => ?_⟩, fun v hv => ?_⟩
    · rw [List.flatMap_cons, Reducers.runEvents_append, hrun, Option.bind_some, hrun']
    · rw [hred.frame _ fun k' hk' => ⟨(hne k' hk').1.2.symm, (hne k' hk').2.2.symm⟩, hr]
    · cases hx.symm.trans hx'
      cases hy.symm.trans hy'
      rw [hred.frame _ fun k' hk' => ⟨(hne k' hk').1.1.symm, (hne k' hk').2.1.symm⟩, hl]
    · obtain ⟨⟨h₁, h₂⟩, h₃, h₄⟩ := hne k' hk'
      rw [← hsame _ h₁ h₂, ← hsame _ h₃ h₄]
      exact hred.kept k' hk'
    · rw [hred.frame v fun k' hk' => hv k' (.tail _ hk'),
        hsame v (hv k (.head _)).1 (hv k (.head _)).2]

/-- Where the view of a reducer is. -/
def viewOf (m : Key → Option ReducerBase) (k : Key) : Key := ((m k).map (·.view)).getD 0

theorem viewOf_eq (h : m k = some b) : viewOf m k = b.view := by rw [viewOf, h]; rfl

/-! ## Merging -/

/-- The views of `s` have gone to the table that held `d`, which holds `m'`
now. -/
structure Joins (R : Reducers M) (mem mem' : Key → Option M)
    (d s m' : Key → Option ReducerBase) : Prop where
  stored : Stored R mem' m'
  views : ∀ v, HasView m' v → HasView d v ∨ HasView s v
  frame : ∀ v, ¬ HasView d v → ¬ HasView s v → mem' v = mem v
  freed : ∀ v, HasView d v ∨ HasView s v → ¬ HasView m' v → mem' v = none
  sees : ∀ k, sees mem' m' k = PartialFolds.join (R.op k) (sees mem d k) (sees mem s k)

namespace Joins

variable {d s : Key → Option ReducerBase}

/-- No reducer is new. -/
theorem keys (h : Joins R mem mem' d s m) (hm : m k = some b) : (d k).isSome ∨ (s k).isSome := by
  obtain ⟨x, hx⟩ := h.stored.live hm
  have hsee := h.sees k
  have hself : Cilksan.sees mem' m k = some x := by rw [Cilksan.sees, hm, Option.bind_some, hx]
  rw [hself] at hsee
  by_contra hno
  obtain ⟨hd, hs⟩ := not_or.1 hno
  rw [Option.not_isSome_iff_eq_none] at hd hs
  have hnone : ∀ {n : Key → Option ReducerBase}, n k = none →
      Cilksan.sees mem n k = none := fun h => by
    rw [Cilksan.sees, h, Option.bind_none]
  rw [hnone hd, hnone hs] at hsee
  cases hsee

end Joins

section

variable {leftDst : Bool} {ml mr : Key → Option ReducerBase}

/-- The view that stays is the left one, if there is one. -/
theorem mergedEntry_cases {l r : Option ReducerBase} (h : mergedEntry leftDst l r = some b) :
    (∃ a, l = some a ∧ b.view = a.view) ∨ l = none ∧ r = some b := by
  cases l with
  | none => exact .inr ⟨rfl, h⟩
  | some a =>
    refine .inl ⟨a, rfl, ?_⟩
    cases r with
    | none =>
      cases h
      rfl
    | some c =>
      cases h
      rfl

theorem mergedEntry_eq_none {l r : Option ReducerBase} (h : mergedEntry leftDst l r = none) :
    l = none ∧ r = none := by
  cases l with
  | none => exact ⟨rfl, h⟩
  | some a =>
    cases r with
    | none => cases h
    | some c => cases h

/-- What running the events of a merge leaves of the views. -/
structure MergedViews (R : Reducers M) (ml mr : Key → Option ReducerBase)
    (mem mem' : Key → Option M) : Prop where
  both : ∀ {k a b x y}, ml k = some a → mr k = some b → mem a.view = some x → mem b.view = some y →
    mem' a.view = some (R.op k x y) ∧ mem' b.view = none
  leftOnly : ∀ {k a}, ml k = some a → mr k = none → mem' a.view = mem a.view
  rightOnly : ∀ {k b}, ml k = none → mr k = some b → mem' b.view = mem b.view
  frame : ∀ v, ¬ HasView ml v → ¬ HasView mr v → mem' v = mem v

theorem runEvents_keyEvents (leftDst : Bool) (hl : Stored R mem ml) (hr : Stored R mem mr)
    (hap : ∀ v, HasView mr v → ¬ HasView ml v)
    {keys : List Key} (hnodup : keys.Nodup) (hkeys : ∀ k, k ∈ keys ↔
      (ml k).isSome = true ∧ (mr k).isSome = true) :
    ∃ mem', R.runEvents mem (keys.flatMap (keyEvents leftDst ml mr)) = some mem' ∧
    MergedViews R ml mr mem mem' := by
  have hsome : ∀ k ∈ keys, ∃ a b, ml k = some a ∧ mr k = some b := fun k hk => by
    obtain ⟨ha, hb⟩ := (hkeys k).1 hk
    obtain ⟨a, ha⟩ := Option.isSome_iff_exists.1 ha
    obtain ⟨b, hb⟩ := Option.isSome_iff_exists.1 hb
    exact ⟨a, b, ha, hb⟩
  have hevents : keys.flatMap (keyEvents leftDst ml mr) =
      keys.flatMap fun k => reduceInto (R.reduceFn k) (viewOf ml k) (viewOf mr k) :=
    List.flatMap_congr fun k hk => by
    obtain ⟨a, b, ha, hb⟩ := hsome k hk
    simp only [keyEvents, ha, hb, viewOf_eq ha, viewOf_eq hb, hl.fn ha, hr.fn hb, ite_self]
  have hsep : Separate (viewOf ml) (viewOf mr) keys := by
    refine ⟨hnodup, fun k hk k' hk' h => ?_, fun k hk k' hk' h => ?_, fun k hk k' hk' h => ?_⟩
    all_goals
      obtain ⟨a, b, ha, hb⟩ := hsome k hk
      obtain ⟨a', b', ha', hb'⟩ := hsome k' hk'
    · rw [viewOf_eq ha, viewOf_eq ha'] at h
      exact hl.inj ha ha' h
    · rw [viewOf_eq hb, viewOf_eq hb'] at h
      exact hr.inj hb hb' h
    · rw [viewOf_eq hb, viewOf_eq ha'] at h
      exact hap _ ⟨k, b, hb, h⟩ ⟨k', a', ha', rfl⟩
  obtain ⟨mem', hrun, hred⟩ := runEvents_reductions R mem hsep fun k hk => by
    obtain ⟨a, b, ha, hb⟩ := hsome k hk
    obtain ⟨x, hx⟩ := hl.live ha
    obtain ⟨y, hy⟩ := hr.live hb
    exact ⟨x, y, by rw [viewOf_eq ha, hx], by rw [viewOf_eq hb, hy]⟩
  rw [hevents]
  refine ⟨mem', hrun, fun {k a b x y} ha hb hx hy => ?_, fun {k a} ha hb => ?_,
    fun {k b} ha hb => ?_, fun v hvl hvr => ?_⟩
  · have hk : k ∈ keys := (hkeys k).2 (by rw [ha, hb]; exact ⟨rfl, rfl⟩)
    have hkept := hred.kept k hk
    have hfreed := hred.freed k hk
    rw [viewOf_eq ha, viewOf_eq hb] at hkept
    rw [viewOf_eq hb] at hfreed
    exact ⟨hkept x y hx hy, hfreed⟩
  · refine hred.frame _ fun k' hk' => ?_
    obtain ⟨a', b', ha', hb'⟩ := hsome k' hk'
    rw [viewOf_eq ha', viewOf_eq hb']
    refine ⟨fun h => ?_, fun h => hap _ ⟨k', b', hb', h.symm⟩ ⟨k, a, ha, rfl⟩⟩
    rw [← hl.inj ha ha' h, hb] at hb'
    cases hb'
  · refine hred.frame _ fun k' hk' => ?_
    obtain ⟨a', b', ha', hb'⟩ := hsome k' hk'
    rw [viewOf_eq ha', viewOf_eq hb']
    refine ⟨fun h => hap _ ⟨k, b, hb, rfl⟩ ⟨k', a', ha', h.symm⟩, fun h => ?_⟩
    rw [← hr.inj hb hb' h, ha] at ha'
    cases ha'
  · refine hred.frame _ fun k hk => ?_
    obtain ⟨a, b, ha, hb⟩ := hsome k hk
    rw [viewOf_eq ha, viewOf_eq hb]
    exact ⟨fun h => hvl ⟨k, a, ha, h.symm⟩, fun h => hvr ⟨k, b, hb, h.symm⟩⟩

/-- A view of the merged table is the left one's, or the right one's alone. -/
theorem exists_view_eq (hm : ∀ k, m k = mergedEntry leftDst (ml k) (mr k)) {k : Key}
    {b : ReducerBase} (hb : m k = some b) :
    (∃ a, ml k = some a ∧ b.view = a.view) ∨ mr k = some b := by
  rw [hm] at hb
  exact (mergedEntry_cases hb).imp_right And.right

/-- It is joined from what both tables had for the key. -/
theorem MergedViews.mem_view (h : MergedViews R ml mr mem mem') (hl : Stored R mem ml)
    (hr : Stored R mem mr) (hm : ∀ k, m k = mergedEntry leftDst (ml k) (mr k)) {k : Key}
    {b : ReducerBase} (hb : m k = some b) :
    mem' b.view = PartialFolds.join (R.op k) (sees mem ml k) (sees mem mr k) ∧
      (mem' b.view).isSome = true := by
  rw [hm] at hb
  rcases mergedEntry_cases hb with ⟨a, ha, hview⟩ | ⟨ha, hb⟩
  · obtain ⟨x, hx⟩ := hl.live ha
    rw [hview, sees, sees, ha, Option.bind_some, hx]
    cases hrk : mr k with
    | none =>
      rw [h.leftOnly ha hrk, hx]
      exact ⟨rfl, rfl⟩
    | some c =>
      obtain ⟨y, hy⟩ := hr.live hrk
      rw [(h.both ha hrk hx hy).1, Option.bind_some, hy]
      exact ⟨rfl, rfl⟩
  · obtain ⟨y, hy⟩ := hr.live hb
    rw [sees, sees, ha, hb, h.rightOnly ha hb, Option.bind_some, hy]
    exact ⟨rfl, rfl⟩

theorem MergedViews.stored (h : MergedViews R ml mr mem mem') (hl : Stored R mem ml)
    (hr : Stored R mem mr) (hap : ∀ v, HasView mr v → ¬ HasView ml v)
    (hm : ∀ k, m k = mergedEntry leftDst (ml k) (mr k)) : Stored R mem' m := by
  refine ⟨fun {k b} hb => ?_, fun hb => Option.isSome_iff_exists.1 (h.mem_view hl hr hm hb).2,
    fun {k k' b b'} hb hb' heq => ?_⟩
  · rw [hm] at hb
    cases hlk : ml k with
    | none =>
      rw [hlk] at hb
      exact hr.fn hb
    | some a =>
      rw [hlk] at hb
      cases hrk : mr k with
      | none =>
        rw [hrk] at hb
        cases hb
        exact hl.fn hlk
      | some c =>
        rw [hrk] at hb
        cases hb
        simp only [hl.fn hlk, hr.fn hrk, ite_self]
  · rcases exists_view_eq hm hb with ⟨a, ha, hva⟩ | hr₁
    · rcases exists_view_eq hm hb' with ⟨a', ha', hva'⟩ | hr₂
      · exact hl.inj ha ha' (by rw [← hva, ← hva', heq])
      · exact absurd ⟨k, a, ha, by rw [← hva, heq]⟩ (hap _ ⟨k', b', hr₂, rfl⟩)
    · rcases exists_view_eq hm hb' with ⟨a', ha', hva'⟩ | hr₂
      · exact absurd ⟨k', a', ha', by rw [← hva', heq]⟩ (hap _ ⟨k, b, hr₁, rfl⟩)
      · exact hr.inj hr₁ hr₂ heq

theorem MergedViews.joins (h : MergedViews R ml mr mem mem') (hl : Stored R mem ml)
    (hr : Stored R mem mr) (hap : ∀ v, HasView mr v → ¬ HasView ml v)
    (hm : ∀ k, m k = mergedEntry leftDst (ml k) (mr k)) : Joins R mem mem' ml mr m := by
  refine ⟨h.stored hl hr hap hm, fun v hv => ?_, h.frame, fun v hv hno => ?_, fun k => ?_⟩
  · obtain ⟨k, b, hb, rfl⟩ := hv
    rcases exists_view_eq hm hb with ⟨a, ha, hva⟩ | hb
    · exact .inl ⟨k, a, ha, hva.symm⟩
    · exact .inr ⟨k, b, hb, rfl⟩
  · rcases hv with ⟨k, a, ha, rfl⟩ | ⟨k, b, hb, rfl⟩
    · refine absurd ?_ hno
      cases hrk : mr k with
      | none => exact ⟨k, a, by rw [hm, ha, hrk]; rfl, rfl⟩
      | some c =>
        exact ⟨k, ⟨a.view, if leftDst then a.reduceFn else c.reduceFn⟩,
          by rw [hm, ha, hrk]; rfl, rfl⟩
    · cases hlk : ml k with
      | none => exact absurd ⟨k, b, by rw [hm, hlk]; exact hb, rfl⟩ hno
      | some a =>
        obtain ⟨x, hx⟩ := hl.live hlk
        obtain ⟨y, hy⟩ := hr.live hb
        exact (h.both hlk hb hx hy).2
  · cases hk : m k with
    | some b => rw [sees, hk, Option.bind_some, (h.mem_view hl hr hm hk).1]
    | none =>
      have hnone := (mergedEntry_eq_none (hm k ▸ hk))
      rw [sees, hk, sees, hnone.1, sees, hnone.2]
      rfl

/-- **Merging.** The views of the right table follow those of the left. -/
theorem OrderedUnion.joins {hash : Key → Nat} {l r t : Option (HyperTable ReducerBase)}
    {events : List ViewEvent}
    (h : OrderedUnion hash leftDst (held l) (held r) t events) (hl : Stored R mem (held l))
    (hr : Stored R mem (held r)) (hap : ∀ v, HasView (held r) v → ¬ HasView (held l) v) :
    ∃ mem', R.runEvents mem events = some mem' ∧ Joins R mem mem' (held l) (held r) (held t) := by
  obtain ⟨m, hm, hentries⟩ := h.views
  obtain ⟨keys, hnodup, hkeys, rfl⟩ := h.effects
  have hinvalid : ∀ {t k}, isValid k = false → held t k = none := fun {t k} hk => by
    cases ht : held t k with
    | none => rfl
    | some b =>
      rw [isValid_of_held ht] at hk
      cases hk
  have hstands : Stands hash t fun k => mergedEntry leftDst (held l k) (held r k) := by
    cases t with
    | none => exact fun k hk => (hentries k hk).1.symm.trans (hm k hk)
    | some t => exact Holds.congr hm fun k hk => (hentries k hk).1
  have hheld := hstands.held_eq fun k hk => by
    rw [hinvalid hk, hinvalid hk]
    rfl
  obtain ⟨mem', hrun, hmerged⟩ := runEvents_keyEvents leftDst hl hr hap hnodup fun k => by
    rw [hkeys]
    refine and_iff_right_of_imp fun hk => ?_
    obtain ⟨b, hb⟩ := Option.isSome_iff_exists.1 hk.1
    exact isValid_of_held hb
  exact ⟨mem', hrun, hmerged.joins hl hr hap (congrFun hheld)⟩

end

/-! ## Reducing -/

/-- Each view has been reduced into the leftmost one of its reducer, and freed. -/
structure ReducesTo (R : Reducers M) (mem mem' : Key → Option M)
    (m : Key → Option ReducerBase) : Prop where
  freed : ∀ v, HasView m v → mem' v = none
  kept : ∀ v, ¬ HasView m v →
    mem' v = (mem v).map fun w => PartialFolds.after (R.op v) w (sees mem m v)

theorem runEvents_foldEvents (hs : Stored R mem m)
    (hleft : ∀ k b, m k = some b → (∃ w, mem k = some w) ∧ ¬ HasView m k)
    {keys : List Key} (hnodup : keys.Nodup) (hkeys : ∀ k, k ∈ keys ↔ ∃ b, m k = some b) :
    ∃ mem', R.runEvents mem (keys.flatMap (foldEvents m)) = some mem' ∧ ReducesTo R mem mem' m := by
  have hevents :
    keys.flatMap (foldEvents m) = keys.flatMap fun k =>
    reduceInto (R.reduceFn k) (id k) (viewOf m k) := List.flatMap_congr fun k hk => by
      obtain ⟨b, hb⟩ := (hkeys k).1 hk
      simp only [foldEvents, hb, viewOf_eq hb, hs.fn hb, id_eq]
  have hsep : Separate id (viewOf m) keys := by
    refine ⟨hnodup, fun _ _ _ _ h => h, fun k hk k' hk' h => ?_, fun k hk k' hk' h => ?_⟩
    all_goals
      obtain ⟨b, hb⟩ := (hkeys k).1 hk
      obtain ⟨b', hb'⟩ := (hkeys k').1 hk'
      rw [viewOf_eq hb] at h
    · rw [viewOf_eq hb'] at h
      exact hs.inj hb hb' h
    · exact (hleft k' b' hb').2 ⟨k, b, hb, h⟩
  obtain ⟨mem', hrun, hred⟩ := runEvents_reductions R mem hsep fun k hk => by
    obtain ⟨b, hb⟩ := (hkeys k).1 hk
    obtain ⟨w, hw⟩ := (hleft k b hb).1
    obtain ⟨y, hy⟩ := hs.live hb
    exact ⟨w, y, hw, by rw [viewOf_eq hb, hy]⟩
  rw [hevents]
  refine ⟨mem', hrun, fun v hv => ?_, fun v hv => ?_⟩
  · obtain ⟨k, b, hb, rfl⟩ := hv
    have hfreed := hred.freed k ((hkeys k).2 ⟨b, hb⟩)
    rwa [viewOf_eq hb] at hfreed
  · cases hm : m v with
    | some b =>
      obtain ⟨w, hw⟩ := (hleft v b hm).1
      obtain ⟨y, hy⟩ := hs.live hm
      have hkept := hred.kept v ((hkeys v).2 ⟨b, hm⟩) w y hw
      rw [viewOf_eq hm] at hkept
      rw [sees, hm, Option.bind_some, hw, hy]
      exact hkept hy
    | none =>
      rw [sees, hm, hred.frame v fun k hk => ⟨fun h => ?_, fun h => ?_⟩]
      · cases hw : mem v <;> rfl
      · obtain ⟨b, hb⟩ := (hkeys k).1 hk
        rw [show v = k from h, hb] at hm
        cases hm
      · obtain ⟨b, hb⟩ := (hkeys k).1 hk
        rw [viewOf_eq hb] at h
        exact hv ⟨k, b, hb, h.symm⟩

/-- **Reducing** a table of views that are not leftmost. -/
theorem reduceLeftmost_spec {hash : Key → Nat} {t : HyperTable ReducerBase} (hg : Good hash t)
    (hs : Stored R mem (held (some t)))
    (hleft : ∀ k b, held (some t) k = some b →
      (∃ w, mem k = some w) ∧ ¬ HasView (held (some t)) k) :
    ∃ events mem', reduceLocalViews hash ⟨none, some t⟩ = some (⟨none, none⟩, events) ∧
    R.runEvents mem events = some mem' ∧
      ReducesTo R mem mem' (held (some t)) := by
  have hheld : Holds hash t (held (some t)) := hg.holds
  have hother : ∀ {k b}, held (some t) k = some b → b.view ≠ k :=
    fun {k b} hb h => (hleft k b hb).2 ⟨k, b, hb, h⟩
  have hno : (scanViews t).holdsLeftmostViews = false := by
    rw [Bool.eq_false_iff, Ne, holdsLeftmostViews_iff hheld]
    intro h
    obtain ⟨k, v, -, hlm⟩ := h
    obtain ⟨hm, hview⟩ := leftmost_eq_some.1 hlm
    exact hother hm hview
  obtain ⟨keys, hnodup, hkeys, hevents⟩ := effects_scanViews hheld
  obtain ⟨mem', hrun, hred⟩ := runEvents_foldEvents hs hleft hnodup fun k => by
    rw [hkeys]
    refine ⟨fun h => h.2.imp fun _ hb => hb.1, fun h => ?_⟩
    obtain ⟨b, hb⟩ := h
    exact ⟨isValid_of_held hb, b, hb, hother hb⟩
  refine ⟨(scanViews t).events, mem', ?_, by rw [hevents]; exact hrun, hred⟩
  simp only [reduceLocalViews, hno, Bool.not_false, if_true]

end

end Cilksan
