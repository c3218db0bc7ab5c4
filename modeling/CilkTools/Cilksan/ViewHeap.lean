/-
All views of a computation together: a stack of tables, the head's first, and
the leftmost views below them. What each operation on one or two of the tables
does to the values the reducers would come to in series.
-/
import CilkTools.Cilksan.ViewContents

namespace Cilksan

open PartialFolds

variable {M : Type} {R : Reducers M} {values mem mem' : Key → Option M}
  {m m₀ m' : Key → Option ReducerBase}
  {mid rest ts : List (Key → Option ReducerBase)} {k v : Key} {b : ReducerBase} {w x y : M}

/-- A registered reducer's value is its leftmost view's followed by its views
from the bottom to the top. No two reducers or tables share a view, and
nothing else is allocated. -/
structure ViewHeap (R : Reducers M) (values mem : Key → Option M)
    (ts : List (Key → Option ReducerBase)) : Prop where
  stored : ∀ m ∈ ts, Stored R mem m
  apart : ts.Pairwise fun m m' => ∀ v, HasView m v → ¬ HasView m' v
  registered : ∀ m ∈ ts, ∀ k b, m k = some b → ∃ x, values k = some x
  notView : ∀ k x, values k = some x → ∀ m ∈ ts, ¬ HasView m k
  value : ∀ k x, values k = some x →
    ∃ w, mem k = some w ∧ x = total (R.op k) w (ts.map (sees mem · k))
  used : ∀ v, mem v ≠ none → (∃ x, values v = some x) ∨ ∃ m ∈ ts, HasView m v

theorem map_sees_congr (h : ∀ m ∈ ts, ∀ v, HasView m v → mem' v = mem v) (k : Key) :
    ts.map (sees mem' · k) = ts.map (sees mem · k) :=
  List.map_congr_left fun m hm => sees_congr (h m hm) k

namespace ViewHeap

theorem init : ViewHeap R (fun _ => none) (fun _ => none) [fun _ => none] where
  stored m hm := by
    rw [List.mem_singleton.1 hm]
    exact .empty
  apart := List.pairwise_singleton ..
  registered m hm k b h := by
    rw [List.mem_singleton.1 hm] at h
    cases h
  notView k x h := by cases h
  value k x h := by cases h
  used v h := absurd rfl h

/-- An empty table does not count. -/
theorem append_none (pre : List (Key → Option ReducerBase)) :
    ViewHeap R values mem (pre ++ (fun _ => none) :: ts) ↔ ViewHeap R values mem (pre ++ ts) := by
  have hmem : ∀ {n}, n ∈ pre ++ (fun _ => none) :: ts ↔
      n = (fun _ => none) ∨ n ∈ pre ++ ts := fun {n} => by
    simp only [List.mem_append, List.mem_cons]
    exact or_left_comm
  have hused : ∀ {v}, (∃ n ∈ pre ++ (fun _ => none) :: ts, HasView n v) ↔
      ∃ n ∈ pre ++ ts, HasView n v := fun {v} => by
    refine ⟨fun h => ?_, fun h => ?_⟩
    · obtain ⟨n, hn, hv⟩ := h
      rcases hmem.1 hn with rfl | hn
      · exact absurd hv not_hasView_none
      · exact ⟨n, hn, hv⟩
    · obtain ⟨n, hn, hv⟩ := h
      exact ⟨n, hmem.2 (.inr hn), hv⟩
  have htotal : ∀ (k w), total (R.op k) w ((pre ++ (fun _ => none) :: ts).map (sees mem · k)) =
      total (R.op k) w ((pre ++ ts).map (sees mem · k)) := fun k w => by
    rw [List.map_append, List.map_cons, List.map_append, total_append, total_append]
    rfl
  refine ⟨fun h => ⟨fun n hn => h.stored n (hmem.2 (.inr hn)), ?_,
      fun n hn => h.registered n (hmem.2 (.inr hn)),
    fun k x hx n hn => h.notView k x hx n (hmem.2 (.inr hn)), fun k x hx => ?_,
    fun v hv => (h.used v hv).imp_right hused.1⟩,
    fun h => ⟨fun n hn => ?_, ?_, fun n hn => ?_, fun k x hx n hn => ?_, fun k x hx => ?_,
      fun v hv => (h.used v hv).imp_right hused.2⟩⟩
  · exact h.apart.sublist (List.Sublist.append_left (List.sublist_cons_self ..) pre)
  · obtain ⟨w, hw, hx⟩ := h.value k x hx
    exact ⟨w, hw, by rw [hx, htotal]⟩
  · rcases hmem.1 hn with rfl | hn
    · exact .empty
    · exact h.stored n hn
  · obtain ⟨hpre, hts, hboth⟩ := List.pairwise_append.1 h.apart
    refine List.pairwise_append.2
      ⟨hpre, List.pairwise_cons.2 ⟨fun _ _ _ hv => absurd hv not_hasView_none, hts⟩, ?_⟩
    intro n hn n' hn' v hv hv'
    rcases List.mem_cons.1 hn' with rfl | hn'
    · exact not_hasView_none hv'
    · exact hboth n hn n' hn' v hv hv'
  · rcases hmem.1 hn with rfl | hn
    · exact fun _ _ hm => nomatch hm
    · exact h.registered n hn
  · rcases hmem.1 hn with rfl | hn
    · exact not_hasView_none
    · exact h.notView k x hx n hn
  · obtain ⟨w, hw, hx⟩ := h.value k x hx
    exact ⟨w, hw, by rw [hx, htotal]⟩

/-- Neither do several. -/
theorem append_nones (pre : List (Key → Option ReducerBase)) (hmid : ∀ m ∈ mid, m = fun _ => none) :
    ViewHeap R values mem (pre ++ (mid ++ ts)) ↔ ViewHeap R values mem (pre ++ ts) := by
  induction mid with
  | nil => exact Iff.rfl
  | cons m mid ih =>
    rw [List.forall_mem_cons] at hmid
    rw [hmid.1, List.cons_append, append_none, ih hmid.2]

theorem cons_none : ViewHeap R values mem ((fun _ => none) :: ts) ↔ ViewHeap R values mem ts :=
  append_none []

theorem nones (h : ∀ m ∈ ts, m = fun _ => none) : ViewHeap R values mem ts ↔
    ViewHeap R values mem [] := by
  have hnil : ViewHeap R values mem ([] ++ (ts ++ [])) ↔ ViewHeap R values mem ([] ++ []) :=
    append_nones [] h
  rwa [List.append_nil] at hnil

/-- Tables above another with nothing in between. -/
theorem merge (h : ViewHeap R values mem (m₀ :: (mid ++ m :: rest)))
    (hmid : ∀ m ∈ mid, m = fun _ => none)
    (hj : Joins R mem mem' m m₀ m') :
    ViewHeap R values mem' ((fun _ => none) :: (mid ++ m' :: rest)) := by
  replace h : ViewHeap R values mem (m₀ :: m :: rest) := (append_nones [m₀] hmid).1 h
  suffices hs : ViewHeap R values mem' (m' :: rest) from cons_none.2 ((append_nones [] hmid).2 hs)
  have hrest : ∀ n ∈ rest, ∀ v, HasView n v → ¬ HasView m v ∧ ¬ HasView m₀ v := fun n hn v hv =>
    ⟨fun hm => (List.pairwise_cons.1 (List.pairwise_cons.1 h.apart).2).1 n hn v hm hv,
      fun hm => (List.pairwise_cons.1 h.apart).1 n (.tail _ hn) v hm hv⟩
  have hframe : ∀ n ∈ rest, ∀ v, HasView n v → mem' v = mem v := fun n hn v hv =>
    hj.frame v (hrest n hn v hv).1 (hrest n hn v hv).2
  have hviews : ∀ {k x}, values k = some x → ¬ HasView m k ∧ ¬ HasView m₀ k := fun {k x} hx =>
    ⟨h.notView k x hx m (by simp), h.notView k x hx m₀ (by simp)⟩
  refine ⟨?_, ?_, ?_, ?_, fun k x hx => ?_, fun v hv => ?_⟩
  · exact List.forall_mem_cons.2
      ⟨hj.stored, fun n hn => (h.stored n (by simp [hn])).congr (hframe n hn)⟩
  · refine List.pairwise_cons.2
      ⟨fun n hn v hv hv' => ?_, (List.pairwise_cons.1 (List.pairwise_cons.1 h.apart).2).2⟩
    exact (hj.views v hv).elim (hrest n hn v hv').1 (hrest n hn v hv').2
  · refine List.forall_mem_cons.2 ⟨fun k b hm => ?_, fun n hn => h.registered n (by simp [hn])⟩
    rcases hj.keys hm with hk | hk
    · obtain ⟨b, hb⟩ := Option.isSome_iff_exists.1 hk
      exact h.registered m (by simp) k b hb
    · obtain ⟨b, hb⟩ := Option.isSome_iff_exists.1 hk
      exact h.registered m₀ (by simp) k b hb
  · intro k x hx
    refine List.forall_mem_cons.2 ⟨fun hv => ?_, fun n hn => h.notView k x hx n (by simp [hn])⟩
    exact (hj.views k hv).elim (hviews hx).1 (hviews hx).2
  · obtain ⟨w, hw, hval⟩ := h.value k x hx
    refine ⟨w, by rw [hj.frame k (hviews hx).1 (hviews hx).2, hw], ?_⟩
    have hsee : sees mem' m' k = join (R.op k) (sees mem m k) (sees mem m₀ k) := hj.sees k
    rw [hval, List.map_cons, List.map_cons, List.map_cons, hsee, map_sees_congr hframe]
    exact total_merge (R.assoc k) [] (List.forall_mem_nil _)
  · by_cases hm : HasView m v ∨ HasView m₀ v
    · by_cases hv' : HasView m' v
      · exact .inr ⟨m', by simp, hv'⟩
      · exact absurd (hj.freed v hm hv') hv
    · obtain ⟨hm, hm₀⟩ := not_or.1 hm
      rw [hj.frame v hm hm₀] at hv
      refine (h.used v hv).imp_right fun hn => ?_
      obtain ⟨n, hn, hv'⟩ := hn
      rcases List.mem_cons.1 hn with rfl | hn
      · exact absurd hv' hm₀
      · rcases List.mem_cons.1 hn with rfl | hn
        · exact absurd hv' hm
        · exact ⟨n, .tail _ hn, hv'⟩

/-- The head's table goes to the leftmost views, with no other below it. -/
theorem reduce (h : ViewHeap R values mem (m :: rest)) (hrest : ∀ m ∈ rest, m = fun _ => none)
    (hr : ReducesTo R mem mem' m) : ViewHeap R values mem' ((fun _ => none) :: rest) := by
  replace h : ViewHeap R values mem [m] := by
    have hnil : ViewHeap R values mem ([m] ++ (rest ++ [])) ↔ ViewHeap R values mem ([m] ++ []) :=
      append_nones [m] hrest
    rw [List.append_nil] at hnil
    exact hnil.1 h
  suffices hs : ViewHeap R values mem' [] from cons_none.2 ((nones hrest).2 hs)
  refine ⟨nofun, .nil, nofun, nofun, fun k x hx => ?_, fun v hv => ?_⟩
  · obtain ⟨w, hw, hval⟩ := h.value k x hx
    exact ⟨after (R.op k) w (sees mem m k),
      by rw [hr.kept k (h.notView k x hx m (by simp)), hw]; rfl, hval⟩
  · by_cases hm : HasView m v
    · exact absurd (hr.freed v hm) hv
    · rw [hr.kept v hm] at hv
      have hv : mem v ≠ none := fun h0 => hv (by rw [h0]; rfl)
      refine (h.used v hv).imp_right fun hn => ?_
      obtain ⟨n, hn, hv'⟩ := hn
      rw [List.mem_singleton.1 hn] at hv'
      exact absurd hv' hm

/-! ### What the program does -/

/-- What nothing is at is no view and no leftmost one. -/
theorem fresh (h : ViewHeap R values mem ts) (hv : mem v = none) :
    (∀ x, values v ≠ some x) ∧ ∀ m ∈ ts, ¬ HasView m v := by
  refine ⟨fun x hx => ?_, fun m hm hv' => ?_⟩
  · obtain ⟨w, hw, -⟩ := h.value v x hx
    cases hv.symm.trans hw
  · obtain ⟨k, b, hb, rfl⟩ := hv'
    obtain ⟨w, hw⟩ := (h.stored m hm).live hb
    cases hv.symm.trans hw

/-- A reducer gets an identity view where it had none. -/
theorem create (h : ViewHeap R values mem (mid ++ m :: rest)) (hmid : ∀ m ∈ mid, m = fun _ => none)
    (hx : values k = some x)
    (hk : m k = none) (hv : mem b.view = none) (hfn : b.reduceFn = R.reduceFn k) :
    ViewHeap R values (Function.update mem b.view (some (R.identity k)))
    (mid ++ Function.update m k (some b) :: rest) := by
  replace h : ViewHeap R values mem (m :: rest) := (append_nones [] hmid).1 h
  suffices hs : ViewHeap R values (Function.update mem b.view (some (R.identity k)))
    (Function.update m k (some b) :: rest) from (append_nones [] hmid).2 hs
  obtain ⟨hnew, hno⟩ := h.fresh hv
  have hframe : ∀ n ∈ m :: rest, ∀ v, HasView n v →
    Function.update mem b.view (some (R.identity k)) v = mem v :=
    fun n hn v hv => Function.update_of_ne (fun heq : v = b.view => hno n hn (heq ▸ hv)) ..
  obtain ⟨hs, hsee⟩ :=
    (h.stored m (by simp)).update (Function.update mem b.view (some (R.identity k))) hfn
      (Function.update_self ..) fun k' b' _ hb' =>
        have hv' : HasView m b'.view := ⟨k', b', hb', rfl⟩
        ⟨fun heq => hno m (by simp) (heq ▸ hv'), hframe m (by simp) _ hv'⟩
  refine ⟨?_, ?_, ?_, fun j y hy => ?_, fun j y hy => ?_, fun v hv' => ?_⟩
  · exact List.forall_mem_cons.2
      ⟨hs, fun n hn => (h.stored n (by simp [hn])).congr (hframe n (by simp [hn]))⟩
  · refine List.pairwise_cons.2 ⟨fun n hn v hv' => ?_, (List.pairwise_cons.1 h.apart).2⟩
    rcases hv'.of_update with rfl | hv'
    · exact hno n (by simp [hn])
    · exact (List.pairwise_cons.1 h.apart).1 n hn v hv'
  · refine List.forall_mem_cons.2 ⟨fun j d hd => ?_, fun n hn => h.registered n (by simp [hn])⟩
    by_cases hj : j = k
    · exact ⟨x, by rw [hj, hx]⟩
    · rw [Function.update_of_ne hj] at hd
      exact h.registered m (by simp) j d hd
  · refine List.forall_mem_cons.2 ⟨fun hj => ?_, fun n hn => h.notView j y hy n (by simp [hn])⟩
    rcases hj.of_update with rfl | hj
    · exact hnew y hy
    · exact h.notView j y hy m (by simp) hj
  · obtain ⟨w, hw, hval⟩ := h.value j y hy
    refine ⟨w, by rw [Function.update_of_ne fun heq : j = b.view => hnew y (heq ▸ hy), hw], ?_⟩
    have hsame : ∀ n ∈ rest, ∀ v, HasView n v →
      Function.update mem b.view (some (R.identity k)) v = mem v :=
      fun n hn => hframe n (by simp [hn])
    rw [hval, List.map_cons, List.map_cons, map_sees_congr hsame, hsee]
    by_cases hj : j = k
    · have hnone : sees mem m k = none := by rw [sees, hk, Option.bind_none]
      rw [hj, Function.update_self, hnone]
      exact (total_create (R.reduce_identity k) [] _).symm
    · rw [Function.update_of_ne hj]
  · by_cases heq : v = b.view
    · exact .inr ⟨_, .head _, heq ▸ ⟨k, b, Function.update_self .., rfl⟩⟩
    · rw [Function.update_of_ne heq] at hv'
      refine (h.used v hv').imp_right fun hn => ?_
      obtain ⟨n, hn, hv'⟩ := hn
      rcases List.mem_cons.1 hn with rfl | hn
      · rcases hv'.update k b with hv' | ⟨d, hd, -⟩
        · exact ⟨_, .head _, hv'⟩
        · cases hk.symm.trans hd
      · exact ⟨n, .tail _ hn, hv'⟩

/-- A view is updated that has none above it. -/
theorem update (h : ViewHeap R values mem (mid ++ m :: rest)) (hmid : ∀ m ∈ mid, m = fun _ => none)
    (hx : values k = some x) (hk : m k = some b) (hy : mem b.view = some y) (u : M) :
    ViewHeap R (Function.update values k (some (R.op k x u)))
    (Function.update mem b.view (some (R.op k y u)))
      (mid ++ m :: rest) := by
  replace h : ViewHeap R values mem (m :: rest) := (append_nones [] hmid).1 h
  suffices hs : ViewHeap R (Function.update values k (some (R.op k x u)))
      (Function.update mem b.view (some (R.op k y u))) (m :: rest) from (append_nones [] hmid).2 hs
  have hm := h.stored m (by simp)
  have hview : HasView m b.view := ⟨k, b, hk, rfl⟩
  have hframe : ∀ n ∈ rest, ∀ v, HasView n v →
      Function.update mem b.view (some (R.op k y u)) v = mem v := fun n hn v hv =>
    Function.update_of_ne
      (fun heq : v = b.view => (List.pairwise_cons.1 h.apart).1 n hn _ hview (heq ▸ hv)) ..
  obtain ⟨hs, hsee⟩ :=
    hm.update (b := b) (k := k) (Function.update mem b.view (some (R.op k y u))) (hm.fn hk)
      (Function.update_self ..) fun k' b' hk' hb' =>
        ⟨hm.view_ne hk hb' hk', Function.update_of_ne (hm.view_ne hk hb' hk') ..⟩
  rw [← hk, Function.update_eq_self] at hs hsee
  have hdom : ∀ {j z}, Function.update values k (some (R.op k x u)) j = some z →
      ∃ z', values j = some z' := fun {j z} hz => by
    by_cases hj : j = k
    · exact ⟨x, hj ▸ hx⟩
    · exact ⟨z, by rwa [Function.update_of_ne hj] at hz⟩
  have hdom' : ∀ {j z}, values j = some z →
    ∃ z', Function.update values k (some (R.op k x u)) j = some z' := fun {j z} hz => by
      by_cases hj : j = k
      · exact ⟨_, by rw [hj, Function.update_self]⟩
      · exact ⟨z, by rwa [Function.update_of_ne hj]⟩
  refine ⟨?_, h.apart, fun n hn j d hd => ?_, fun j z hz n hn => ?_, fun j z hz => ?_,
    fun v hv => ?_⟩
  · exact List.forall_mem_cons.2 ⟨hs, fun n hn => (h.stored n (by simp [hn])).congr (hframe n hn)⟩
  · obtain ⟨z, hz⟩ := h.registered n hn j d hd
    exact hdom' hz
  · obtain ⟨z', hz'⟩ := hdom hz
    exact h.notView j z' hz' n hn
  · obtain ⟨z', hz'⟩ := hdom hz
    obtain ⟨w, hw, hval⟩ := h.value j z' hz'
    have hne : j ≠ b.view := fun heq => h.notView j z' hz' m (by simp) (heq ▸ hview)
    refine ⟨w, by rw [Function.update_of_ne hne, hw], ?_⟩
    rw [List.map_cons, map_sees_congr hframe, hsee]
    rw [List.map_cons] at hval
    by_cases hj : j = k
    · subst hj
      cases hx.symm.trans hz'
      rw [Function.update_self] at hz
      have hseen : sees mem m j = some y := by rw [sees, hk, Option.bind_some, hy]
      rw [hseen] at hval
      rw [Function.update_self, ← Option.some.inj hz, hval]
      exact (total_update (R.assoc j) [] (List.forall_mem_nil _)).symm
    · rw [Function.update_of_ne hj] at hz ⊢
      cases hz'.symm.trans hz
      exact hval
  · by_cases heq : v = b.view
    · exact .inr ⟨m, .head _, heq ▸ hview⟩
    · rw [Function.update_of_ne heq] at hv
      refine (h.used v hv).imp_left fun hz => ?_
      obtain ⟨z, hz⟩ := hz
      exact hdom' hz

/-- A leftmost view is updated while there is no other. -/
theorem updateLeftmost (h : ViewHeap R values mem ts) (hts : ∀ m ∈ ts, m = fun _ => none)
    (hx : values k = some x) (hy : mem k = some y) (u : M) :
    ViewHeap R (Function.update values k (some (R.op k x u)))
    (Function.update mem k (some (R.op k y u))) ts := by
  refine (nones hts).2 ⟨nofun, .nil, nofun, nofun, fun j z hz => ?_, fun v hv => ?_⟩
  all_goals replace h := (nones hts).1 h
  · by_cases hj : j = k
    · subst hj
      obtain ⟨w, hw, hval⟩ := h.value j x hx
      cases hy.symm.trans hw
      rw [Function.update_self] at hz
      refine ⟨_, Function.update_self .., (Option.some.inj hz).symm.trans ?_⟩
      rw [hval]
      rfl
    · rw [Function.update_of_ne hj] at hz ⊢
      exact h.value j z hz
  · by_cases heq : v = k
    · exact .inl ⟨_, by rw [heq, Function.update_self]⟩
    · rw [Function.update_of_ne heq] at hv ⊢
      exact h.used v hv

/-- A reducer is registered at an address where nothing is. -/
theorem register (h : ViewHeap R values mem ts) (hk : mem k = none) (x : M) :
    ViewHeap R (Function.update values k (some x)) (Function.update mem k (some x)) ts := by
  obtain ⟨hnew, hno⟩ := h.fresh hk
  have hframe : ∀ m ∈ ts, ∀ v, HasView m v → Function.update mem k (some x) v = mem v :=
    fun m hm v hv =>
    Function.update_of_ne (fun heq : v = k => hno m hm (heq ▸ hv)) ..
  refine ⟨fun m hm => (h.stored m hm).congr (hframe m hm), h.apart, fun m hm j b hb => ?_,
    fun j y hy m hm => ?_, fun j y hy => ?_, fun v hv => ?_⟩
  · by_cases hj : j = k
    · exact ⟨x, by rw [hj, Function.update_self]⟩
    · rw [Function.update_of_ne hj]
      exact h.registered m hm j b hb
  · by_cases hj : j = k
    · exact hj ▸ hno m hm
    · rw [Function.update_of_ne hj] at hy
      exact h.notView j y hy m hm
  · rw [map_sees_congr hframe]
    by_cases hj : j = k
    · subst hj
      refine ⟨x, Function.update_self .., ?_⟩
      rw [Function.update_self] at hy
      rw [total_of_none fun l hl => ?_, Option.some.inj hy]
      obtain ⟨m, hm, rfl⟩ := List.mem_map.1 hl
      cases hmk : m j with
      | none => simp only [sees, hmk, Option.bind_none]
      | some b =>
        obtain ⟨z, hz⟩ := h.registered m hm j b hmk
        exact absurd hz (hnew z)
    · rw [Function.update_of_ne hj] at hy ⊢
      exact h.value j y hy
  · by_cases heq : v = k
    · exact .inl ⟨x, by rw [heq, Function.update_self]⟩
    · rw [Function.update_of_ne heq] at hv ⊢
      exact h.used v hv

/-- A reducer is unregistered, and is no more, while it has no view but the
leftmost. -/
theorem unregister (h : ViewHeap R values mem ts) (hts : ∀ m ∈ ts, m = fun _ => none) :
    ViewHeap R (Function.update values k none) (Function.update mem k none) ts := by
  refine (nones hts).2 ⟨nofun, .nil, nofun, nofun, fun j z hz => ?_, fun v hv => ?_⟩
  all_goals replace h := (nones hts).1 h
  · have hj : j ≠ k := fun hj => by
      rw [hj, Function.update_self] at hz
      cases hz
    rw [Function.update_of_ne hj] at hz ⊢
    exact h.value j z hz
  · have hne : v ≠ k := fun heq => hv (by rw [heq, Function.update_self])
    rw [Function.update_of_ne hne] at hv ⊢
    exact h.used v hv

end ViewHeap

end Cilksan
