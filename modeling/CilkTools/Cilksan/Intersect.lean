/-
`LockSet_t::intersect` (`locksets.h`), on what is left of the two arrays.

The merge ends with the shorter array, and the locks left over in the other
one clear no flag. `exactFor_intersect_iff` says when that shows.
-/
import CilkTools.Cilksan.LockSets

namespace Cilksan.LockSet

open IntersectionResult

/-- Past the locks smaller than `b`, each clearing `flag`. The error is the
early return. -/
def skip (flag : IntersectionResult) (b : Nat) : IntersectionResult → List Nat →
    Except IntersectionResult (IntersectionResult × List Nat)
  | result, [] => .ok (result, [])
  | result, a :: l =>
    if a < b then
      let result := result &&& ~~~flag
      if result = NONEMPTY then .error result else skip flag b result l
    else .ok (result, a :: l)

def advanceL (result : IntersectionResult) (l r : List Nat) :
    Except IntersectionResult (IntersectionResult × List Nat) :=
  match r with
  | [] => .ok (result, l)
  | b :: _ => skip L_SUBSET_OF_R b result l

def advanceR (result : IntersectionResult) (l r : List Nat) :
    Except IntersectionResult (IntersectionResult × List Nat) :=
  match l with
  | [] => .ok (result, r)
  | a :: _ => skip L_SUPERSET_OF_R a result r

def checkCommon (result : IntersectionResult) (l r : List Nat) :
    Except IntersectionResult (IntersectionResult × List Nat × List Nat) :=
  match l, r with
  | a :: l', b :: r' =>
    if a = b then
      let result := result ||| NONEMPTY
      if result = NONEMPTY then .error result else .ok (result, l', r')
    else .ok (result, l, r)
  | _, _ => .ok (result, l, r)

/-- The body of the loop. -/
def intersectStep (result : IntersectionResult) (l r : List Nat) :
    Except IntersectionResult (IntersectionResult × List Nat × List Nat) := do
  let (result, l) ← advanceL result l r
  let (result, r) ← advanceR result l r
  checkCommon result l r

def intersectLoop : Nat → IntersectionResult → List Nat → List Nat → IntersectionResult
  | 0, result, _, _ => result
  | fuel + 1, result, l, r =>
    match intersectStep result l r with
    | .error result => result
    | .ok (result, l, r) =>
      if !l.isEmpty && !r.isEmpty then intersectLoop fuel result l r else result

/-- Each round gets past a lock. -/
def intersect (l r : LockSet) : IntersectionResult :=
  if l.ids.isEmpty || r.ids.isEmpty then EMPTY
  else intersectLoop (l.ids.length + r.ids.length) (L_SUBSET_OF_R ||| L_SUPERSET_OF_R) l.ids r.ids

/-- The flags mean what their names say for these two sets. -/
structure ExactFor (result : IntersectionResult) (l r : LockSet) : Prop where
  empty : result = .EMPTY ↔ l.Disjoint r
  subset : ¬ l.Disjoint r → (result &&& .L_SUBSET_OF_R ≠ 0 ↔ l.Subset r)
  superset : ¬ l.Disjoint r → (result &&& .L_SUPERSET_OF_R ≠ 0 ↔ r.Subset l)

/-- If `l` is not within `r`, a lock that only `l` has is smaller than one of `r`. -/
def Decided (l r : LockSet) : Prop := ¬ l.Subset r → ∃ x ∈ l.ids, x ∉ r.ids ∧ ∃ y ∈ r.ids, x < y

/-! ## One lock at a time -/

/-- The merge without its early returns. -/
def merge : IntersectionResult → List Nat → List Nat → IntersectionResult
  | result, a :: l, b :: r =>
    if a < b then merge (result &&& ~~~L_SUBSET_OF_R) l (b :: r)
    else if b < a then merge (result &&& ~~~L_SUPERSET_OF_R) (a :: l) r
    else merge (result ||| NONEMPTY) l r
  | result, _, _ => result
termination_by _ l r => l.length + r.length

variable {result e : IntersectionResult} {l l' r r' : List Nat} {a b fuel : Nat}

theorem merge_nil_left : merge result [] r = result := by
  simp [merge]

theorem merge_nil_right : merge result l [] = result := by
  simp [merge]

/-- Once the sets are known to share a lock and to differ both ways, nothing changes. -/
theorem merge_nonempty (l r : List Nat) : merge NONEMPTY l r = NONEMPTY := by
  generalize h : NONEMPTY = result
  induction result, l, r using merge.induct with
  | case1 result a l b r hab ih =>
    subst h
    rw [merge, if_pos hab]
    exact ih (by decide)
  | case2 result a l b r hab hba ih =>
    subst h
    rw [merge, if_neg hab, if_pos hba]
    exact ih (by decide)
  | case3 result a l b r hab hba ih =>
    subst h
    rw [merge, if_neg hab, if_neg hba]
    exact ih (by decide)
  | case4 result l r hnc =>
    cases l with
    | nil => rw [merge_nil_left]
    | cons a l =>
      cases r with
      | nil => rw [merge_nil_right]
      | cons b r => exact absurd rfl (hnc a l b r rfl)

theorem skip_left_error (h : skip L_SUBSET_OF_R b result l = .error e) :
    merge result l (b :: r) = e := by
  induction l generalizing result with
  | nil => cases h
  | cons a l ih =>
    simp only [skip] at h
    split at h
    · next hab =>
      rw [merge, if_pos hab]
      split at h
      · next hn =>
        cases h
        rw [hn, merge_nonempty]
      · exact ih h
    · cases h

theorem skip_left_ok (h : skip L_SUBSET_OF_R b result l = .ok (e, l')) :
    merge result l (b :: r) = merge e l' (b :: r) ∧ l'.length ≤ l.length ∧
    ∀ a ∈ l'.head?, b ≤ a := by
  induction l generalizing result with
  | nil =>
    cases h
    exact ⟨rfl, Nat.le_refl _, by simp⟩
  | cons a l ih =>
    simp only [skip] at h
    split at h
    · next hab =>
      rw [merge, if_pos hab]
      split at h
      · cases h
      · obtain ⟨hm, hl, hh⟩ := ih h
        exact ⟨hm, Nat.le_succ_of_le hl, hh⟩
    · next hab =>
      cases h
      exact ⟨rfl, Nat.le_refl _, by simpa using hab⟩

theorem skip_right_error (h : skip L_SUPERSET_OF_R a result r = .error e) :
    merge result (a :: l) r = e := by
  induction r generalizing result with
  | nil => cases h
  | cons b r ih =>
    simp only [skip] at h
    split at h
    · next hba =>
      rw [merge, if_neg (by omega), if_pos hba]
      split at h
      · next hn =>
        cases h
        rw [hn, merge_nonempty]
      · exact ih h
    · cases h

/-- Where nothing was passed, the two locks are in the order they were in. -/
theorem skip_right_ok (h : skip L_SUPERSET_OF_R a result r = .ok (e, r')) :
    merge result (a :: l) r = merge e (a :: l) r' ∧ (r' = r ∨ r'.length < r.length) ∧
    ∀ b ∈ r'.head?, a ≤ b := by
  induction r generalizing result with
  | nil =>
    cases h
    exact ⟨rfl, .inl rfl, by simp⟩
  | cons b r ih =>
    simp only [skip] at h
    split at h
    · next hba =>
      rw [merge, if_neg (by omega), if_pos hba]
      split at h
      · cases h
      · obtain ⟨hm, hl, hh⟩ := ih h
        refine ⟨hm, .inr ?_, hh⟩
        rcases hl with rfl | hl
        · simp
        · exact Nat.lt_succ_of_lt hl
    · next hba =>
      cases h
      exact ⟨rfl, .inl rfl, by simpa using hba⟩

/-- One round is some steps of the merge, and at least one. -/
theorem intersectStep_spec (result : IntersectionResult) (a b : Nat) (l r : List Nat) :
    match intersectStep result (a :: l) (b :: r) with
    | .error e => merge result (a :: l) (b :: r) = e
    | .ok (result', l', r') => merge result (a :: l) (b :: r) = merge result' l' r' ∧
        l'.length + r'.length < l.length + r.length + 2 := by
  simp only [intersectStep, advanceL, bind, Except.bind]
  cases hL : skip L_SUBSET_OF_R b result (a :: l) with
  | error e => exact skip_left_error hL
  | ok x =>
    obtain ⟨e, l'⟩ := x
    obtain ⟨hm, hl, hh⟩ := skip_left_ok (r := r) hL
    simp only [List.length_cons] at hl
    rw [hm]
    cases l' with
    | nil =>
      simp only [advanceR, checkCommon, List.length_nil, List.length_cons, true_and]
      omega
    | cons a' l' =>
      simp only [advanceR]
      cases hR : skip L_SUPERSET_OF_R a' e (b :: r) with
      | error e' => exact skip_right_error hR
      | ok y =>
        obtain ⟨e', r'⟩ := y
        obtain ⟨hm', hr, hh'⟩ := skip_right_ok (l := l') hR
        have hba : b ≤ a' := hh a' (by simp)
        simp only [List.length_cons] at hl
        rw [hm']
        cases r' with
        | nil =>
          simp only [checkCommon, List.length_nil, List.length_cons, true_and]
          omega
        | cons b' r' =>
          have hab' : a' ≤ b' := hh' b' (by simp)
          simp only [List.length_cons] at hr
          simp only [checkCommon]
          by_cases heq : a' = b'
          · subst heq
            rw [if_pos rfl, merge, if_neg (Nat.lt_irrefl _), if_neg (Nat.lt_irrefl _)]
            by_cases hn : e' ||| NONEMPTY = NONEMPTY
            · rw [if_pos hn, hn]
              exact merge_nonempty l' r'
            · rw [if_neg hn]
              refine ⟨rfl, ?_⟩
              rcases hr with hr | hr
              · have := congrArg List.length hr
                simp only [List.length_cons] at this
                omega
              · omega
          · rw [if_neg heq]
            refine ⟨rfl, ?_⟩
            -- The two locks differ, so some of `r` was passed.
            rcases hr with hr | hr
            · cases hr
              omega
            · simp only [List.length_cons]
              omega

theorem intersectLoop_eq (hl : l ≠ []) (hr : r ≠ []) (hf : l.length + r.length ≤ fuel) :
    intersectLoop fuel result l r = merge result l r := by
  induction fuel generalizing result l r with
  | zero =>
    have := List.length_pos_of_ne_nil hl
    omega
  | succ fuel ih =>
    obtain ⟨a, l, rfl⟩ := List.exists_cons_of_ne_nil hl
    obtain ⟨b, r, rfl⟩ := List.exists_cons_of_ne_nil hr
    have hs := intersectStep_spec result a b l r
    simp only [intersectLoop]
    cases hst : intersectStep result (a :: l) (b :: r) with
    | error e =>
      rw [hst] at hs
      exact hs.symm
    | ok x =>
      obtain ⟨e, l', r'⟩ := x
      rw [hst] at hs
      simp only [List.length_cons] at hf
      simp only
      rw [hs.1]
      cases l' with
      | nil => simp [merge_nil_left]
      | cons a' l' =>
        cases r' with
        | nil => simp [merge_nil_right]
        | cons b' r' =>
          simp only [List.isEmpty_cons, Bool.not_false, Bool.and_self, if_true]
          exact ih (by simp) (by simp) (by omega)

/-! ## What the merge finds -/

/-- The word for three findings. -/
def word (common subset superset : Bool) : IntersectionResult :=
  (if common then NONEMPTY else EMPTY) ||| (if subset then L_SUBSET_OF_R else 0) |||
    if superset then L_SUPERSET_OF_R else 0

/-- Some lock is in both. -/
def common (l r : List Nat) : Bool := l.any (· ∈ r)

/-- `l` is within `r` as far as the largest lock of `r`. -/
def within (l r : List Nat) : Bool := l.all fun x => x ∈ r || r.all (· ≤ x)

section

variable {c s p : Bool}

theorem word_or_nonempty : word c s p ||| NONEMPTY = word true s p := by
  cases c <;> cases s <;> cases p <;> rfl

theorem word_clear_subset : word c s p &&& ~~~L_SUBSET_OF_R = word c false p := by
  cases c <;> cases s <;> cases p <;> rfl

theorem word_clear_superset : word c s p &&& ~~~L_SUPERSET_OF_R = word c s false := by
  cases c <;> cases s <;> cases p <;> rfl

theorem word_eq_empty : word c s p = EMPTY ↔ c = false ∧ s = false ∧ p = false := by
  cases c <;> cases s <;> cases p <;> decide

theorem word_and_subset : word c s p &&& L_SUBSET_OF_R ≠ 0 ↔ s = true := by
  cases c <;> cases s <;> cases p <;> decide

theorem word_and_superset : word c s p &&& L_SUPERSET_OF_R ≠ 0 ↔ p = true := by
  cases c <;> cases s <;> cases p <;> decide

end

theorem common_eq_true : common l r = true ↔ ∃ x ∈ l, x ∈ r := by
  simp [common]

theorem within_eq_true : within l r = true ↔ ∀ x ∈ l, x ∈ r ∨ ∀ y ∈ r, y ≤ x := by
  simp [within]

theorem common_nil : common l [] = false ∧ common [] l = false := by
  simp [Bool.eq_false_iff, common_eq_true]

theorem within_nil : within l [] = true ∧ within [] l = true := by
  simp [within_eq_true]

/-- Below everything in `r`: in neither `r` nor the rest of `l`. -/
theorem findings_below (l : List Nat) (hr : ∀ y ∈ r, a < y) (hne : r ≠ []) :
    common (a :: l) r = common l r ∧ within (a :: l) r = false ∧
    within r (a :: l) = within r l := by
  have hnot : a ∉ r := fun h => Nat.lt_irrefl _ (hr a h)
  obtain ⟨b, hb⟩ := List.exists_mem_of_ne_nil r hne
  refine ⟨?_, ?_, ?_⟩
  · simp [common, hnot]
  · rw [Bool.eq_false_iff, ne_eq, within_eq_true]
    intro h
    rcases h a (by simp) with h | h
    · exact hnot h
    · exact absurd (h b hb) (Nat.not_le.2 (hr b hb))
  · rw [Bool.eq_iff_iff, within_eq_true, within_eq_true]
    refine forall₂_congr fun x hx => ?_
    have hax := hr x hx
    have hxa : x ≠ a := Nat.ne_of_gt hax
    simp only [List.mem_cons, hxa, false_or, forall_eq_or_imp, Nat.le_of_lt hax, true_and]

theorem common_comm (l r : List Nat) : common l r = common r l := by
  rw [Bool.eq_iff_iff, common_eq_true, common_eq_true]
  constructor <;> exact fun ⟨x, h₁, h₂⟩ => ⟨x, h₂, h₁⟩

theorem findings_equal (hl : (a :: l).Pairwise (· < ·)) (r : List Nat) :
    common (a :: l) (a :: r) = true ∧ within (a :: l) (a :: r) = within l r := by
  rw [List.pairwise_cons] at hl
  refine ⟨by simp [common], ?_⟩
  rw [Bool.eq_iff_iff, within_eq_true, within_eq_true, List.forall_mem_cons]
  rw [and_iff_right (.inl (by simp))]
  refine forall₂_congr fun x hx => ?_
  have hax := hl.1 x hx
  have hxa : x ≠ a := Nat.ne_of_gt hax
  simp only [List.mem_cons, hxa, false_or, forall_eq_or_imp, Nat.le_of_lt hax, true_and]

/-- The merge of two sorted arrays. -/
theorem merge_word (l r : List Nat) (c s p : Bool) (hl : l.Pairwise (· < ·))
    (hr : r.Pairwise (· < ·)) :
    merge (word c s p) l r = word (c || common l r) (s && within l r) (p && within r l) := by
  generalize hw : word c s p = result
  induction result, l, r using merge.induct generalizing c s p with
  | case1 result a l b r hab ih =>
    subst hw
    have hall : ∀ y ∈ b :: r, a < y := by
      rw [List.pairwise_cons] at hr
      exact List.forall_mem_cons.2 ⟨hab, fun y hy => Nat.lt_trans hab (hr.1 y hy)⟩
    obtain ⟨h₁, h₂, h₃⟩ := findings_below l hall (by simp)
    rw [merge, if_pos hab, ih c false p hl.of_cons hr word_clear_subset.symm, h₁, h₂, h₃,
      Bool.false_and, Bool.and_false]
  | case2 result a l b r hab hba ih =>
    subst hw
    have hall : ∀ y ∈ a :: l, b < y := by
      rw [List.pairwise_cons] at hl
      exact List.forall_mem_cons.2 ⟨hba, fun y hy => Nat.lt_trans hba (hl.1 y hy)⟩
    obtain ⟨h₁, h₂, h₃⟩ := findings_below r hall (by simp)
    rw [merge, if_neg hab, if_pos hba, ih c s false hl hr.of_cons word_clear_superset.symm,
      common_comm (a :: l) (b :: r), h₁, h₂, h₃, common_comm r, Bool.false_and, Bool.and_false]
  | case3 result a l b r hab hba ih =>
    subst hw
    obtain rfl : a = b := by omega
    obtain ⟨h₁, h₂⟩ := findings_equal hl r
    obtain ⟨_, h₃⟩ := findings_equal hr l
    rw [merge, if_neg hab, if_neg hba, ih true s p hl.of_cons hr.of_cons word_or_nonempty.symm,
      h₁, h₂, h₃, Bool.true_or, Bool.or_true]
  | case4 result l r hnc =>
    subst hw
    cases l with
    | nil => simp [merge_nil_left, common_nil, within_nil]
    | cons a l =>
      cases r with
      | nil => simp [merge_nil_right, common_nil, within_nil]
      | cons b r => exact absurd rfl (hnc a l b r rfl)

theorem intersect_eq (l r : LockSet) (hl : l.ids.Pairwise (· < ·)) (hr : r.ids.Pairwise (· < ·))
    (hln : l.ids ≠ [])
    (hrn : r.ids ≠ []) :
    l.intersect r = word (common l.ids r.ids) (within l.ids r.ids) (within r.ids l.ids) := by
  have h : (l.ids.isEmpty || r.ids.isEmpty) = false := by simp [hln, hrn]
  rw [intersect, h, if_neg (by simp), intersectLoop_eq hln hrn (Nat.le_refl _)]
  rw [show L_SUBSET_OF_R ||| L_SUPERSET_OF_R = word false true true from rfl,
    merge_word _ _ _ _ _ hl hr]
  simp only [Bool.false_or, Bool.true_and]

theorem within_of_subset {l r : LockSet} (h : l.Subset r) : within l.ids r.ids = true :=
  within_eq_true.2 fun x hx => .inl (h x hx)

theorem decided_iff {l r : LockSet} : l.Decided r ↔ (within l.ids r.ids = true → l.Subset r) := by
  have hw : (∃ x ∈ l.ids, x ∉ r.ids ∧ ∃ y ∈ r.ids, x < y) ↔ ¬ within l.ids r.ids = true := by
    rw [within_eq_true]
    simp only [not_forall, not_or, Nat.not_le, exists_prop]
  rw [Decided, hw, not_imp_not]

/-- **Intersections.** The flags are right exactly if one set is empty or each
set that is not within the other shows it below the other's largest lock. -/
theorem exactFor_intersect_iff (l r : LockSet) (hl : l.ids.Pairwise (· < ·))
    (hr : r.ids.Pairwise (· < ·)) :
    ExactFor (l.intersect r) l r ↔ l.ids = [] ∨ r.ids = [] ∨ l.Decided r ∧ r.Decided l := by
  by_cases hln : l.ids = []
  · have hd : l.Disjoint r := by simp [Disjoint, hln]
    refine iff_of_true ⟨iff_of_true (by simp [intersect, hln]) hd, fun h => absurd hd h,
      fun h => absurd hd h⟩ (.inl hln)
  by_cases hrn : r.ids = []
  · have hd : l.Disjoint r := by simp [Disjoint, hrn]
    exact iff_of_true ⟨iff_of_true (by simp [intersect, hrn]) hd, fun h => absurd hd h,
      fun h => absurd hd h⟩ (.inr (.inl hrn))
  rw [or_iff_right hln, or_iff_right hrn, intersect_eq l r hl hr hln hrn, decided_iff, decided_iff]
  have hdisj : l.Disjoint r ↔ common l.ids r.ids = false := by
    rw [Bool.eq_false_iff, ne_eq, common_eq_true, Disjoint]
    simp only [not_exists, not_and]
  constructor
  · intro h
    by_cases hd : l.Disjoint r
    · -- Disjoint and not empty, so neither is within the other.
      obtain ⟨_, hlr, hrl⟩ := word_eq_empty.1 (h.empty.2 hd)
      exact ⟨fun hw => by simp [hlr] at hw, fun hw => by simp [hrl] at hw⟩
    · exact ⟨fun hw => (h.subset hd).1 (word_and_subset.2 hw),
        fun hw => (h.superset hd).1 (word_and_superset.2 hw)⟩
  · intro ⟨hlr, hrl⟩
    refine ⟨?_, fun _ => ?_, fun _ => ?_⟩
    · rw [word_eq_empty, hdisj]
      refine ⟨And.left, fun hc => ⟨hc, ?_, ?_⟩⟩
      · rw [Bool.eq_false_iff]
        intro hw
        obtain ⟨x, hx⟩ := List.exists_mem_of_ne_nil _ hln
        exact hdisj.2 hc x hx (hlr hw x hx)
      · rw [Bool.eq_false_iff]
        intro hw
        obtain ⟨x, hx⟩ := List.exists_mem_of_ne_nil _ hrn
        exact hdisj.2 hc x (hrl hw x hx) hx
    · rw [word_and_subset]
      exact ⟨hlr, within_of_subset⟩
    · rw [word_and_superset]
      exact ⟨hrl, within_of_subset⟩

/-- Each of these two sets shows that it is not within the other. -/
theorem exactFor_intersect_iff_decided :
    ExactFor (intersect ⟨[1, 3, 4]⟩ ⟨[2, 3, 4]⟩) ⟨[1, 3, 4]⟩ ⟨[2, 3, 4]⟩ ↔
      [1, 3, 4] = [] ∨ [2, 3, 4] = [] ∨
        Decided ⟨[1, 3, 4]⟩ ⟨[2, 3, 4]⟩ ∧ Decided ⟨[2, 3, 4]⟩ ⟨[1, 3, 4]⟩ :=
  exactFor_intersect_iff ⟨[1, 3, 4]⟩ ⟨[2, 3, 4]⟩ (by decide) (by decide)

/-- `{1}` and `{2}` share no lock, and the result is not `EMPTY`. -/
theorem not_exactFor_leftover : ¬ ExactFor (intersect ⟨[1]⟩ ⟨[2]⟩) ⟨[1]⟩ ⟨[2]⟩ := by
  intro h
  have := h.empty.2 (by decide)
  exact absurd this (by decide)

end Cilksan.LockSet
