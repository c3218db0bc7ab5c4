/-
What the shadow memory has at one byte: an entry of each kind that stands for
the accesses of this kind since the byte was cleared last, as in one memory
location. Those that the filter skips have none, as nothing is parallel to them.
-/
import CilkTools.Cilksan.DetectorRuns

namespace Cilksan

open SeriesParallel

/-- What a dictionary is for. -/
def accessKind (isRead : Bool) : AccessKind := if isRead then .read else .write

namespace MemoryOp

def strandAccess (e : MemoryOp) : StrandAccess := (e.strand, accessKind e.isRead)

end MemoryOp

variable {P : Program} {ops : List MemoryOp} {log log' : List LoggedAccess}
  {mlog mlog' : List MemoryAccess}
variable {isRead : Bool} {cur : Nat} {o : Option MemoryAccess} {f : Strand} {e : MemoryOp}

/-- The entry stands for the accesses of its kind to the byte, but for those to
which nothing is parallel. -/
def AtByte (P : Program) (ops : List MemoryOp) (log : List LoggedAccess) (mlog : List MemoryAccess)
    (isRead : Bool) (o : Option MemoryAccess) : Prop :=
  ∃ pre x, StandsFor P.parallel pre (accessKind isRead) x ∧
    Option.Rel (fun m (s : StrandAccess) => LoggedFor log mlog m.func s.1) o x ∧
    (∀ s ∈ pre, ∃ e ∈ ops, e.strandAccess = s) ∧
    ∀ e ∈ ops, e.isRead = isRead → e.strandAccess ∈ pre ∨ ∀ j, P.parallel e.strand j = false

theorem AtByte.nil : AtByte P [] log mlog isRead none :=
  ⟨[], none, .nil, .none, by simp, by simp⟩

theorem AtByte.logged (h : AtByte P ops log mlog isRead o)
    (hlog : ∀ {func strand}, LoggedFor log mlog func strand → LoggedFor log' mlog' func strand) :
    AtByte P ops log' mlog' isRead o := by
  obtain ⟨pre, x, hst, hrel, hops⟩ := h
  refine ⟨pre, x, hst, ?_, hops⟩
  cases hrel with
  | none => exact .none
  | some hl => exact .some (hlog hl)

/-- One more access, which the entry does not have to stand for. -/
theorem AtByte.skip (h : AtByte P ops log mlog isRead o)
    (he : e.isRead = isRead → ∀ j, P.parallel e.strand j = false) :
    AtByte P (ops ++ [e]) log mlog isRead o := by
  obtain ⟨pre, x, hst, hrel, hpre, hops⟩ := h
  refine ⟨pre, x, hst, hrel, fun s hs => ?_, fun e' he' hr => ?_⟩
  · obtain ⟨e', he', rfl⟩ := hpre s hs
    exact ⟨e', List.mem_append_left _ he', rfl⟩
  · rcases List.mem_append.1 he' with he' | he'
    · exact hops e' he' hr
    · rw [List.mem_singleton.1 he'] at hr ⊢
      exact .inr (he hr)

theorem AtByte.inSeries_eq {x : Option StrandAccess} (hj : Judges P cur log mlog f)
    (hrel : Option.Rel (fun m (s : StrandAccess) => LoggedFor log mlog m.func s.1) o x) :
    inSeries f.previousAccessInParallel o = inSeries (fun y => P.parallel y.1 cur) x := by
  cases hrel with
  | none => rfl
  | some hl => simp [inSeries, hj _ _ hl]

/-- A parallel access has a parallel entry, its own or another's. -/
theorem AtByte.exists_entry (h : AtByte P ops log mlog isRead o) (hj : Judges P cur log mlog f)
    (hle : ∀ e ∈ ops, e.strand ≤ cur)
    (he : e ∈ ops) (hr : e.isRead = isRead) (hpar : P.parallel e.strand cur = true) :
    ∃ m, o = some m ∧ f.previousAccessInParallel m = true := by
  obtain ⟨pre, x, hst, hrel, hpre, hops⟩ := h
  rcases hops e he hr with hmem | hnone
  · obtain ⟨y, rfl, hy⟩ := hst.covers _ hmem (congrArg accessKind hr)
    cases hrel with
    | some hl =>
      refine ⟨_, rfl, ?_⟩
      rw [hj _ _ hl]
      refine hy cur (fun s hs => ?_) hpar
      obtain ⟨e', he', rfl⟩ := hpre s hs
      exact hle e' he'
  · rw [hnone] at hpar
    cases hpar

/-- The entry in series is replaced, one that is parallel is left. -/
theorem AtByte.update (hP : P.Nested) (h : AtByte P ops log mlog e.isRead o)
    (hj : Judges P e.strand log mlog f) (hle : ∀ e' ∈ ops, e'.strand ≤ e.strand)
    (hlog : ∀ {func strand}, LoggedFor log mlog func strand → LoggedFor log' mlog' func strand)
    (hnew : inSeries f.previousAccessInParallel o = true → LoggedFor log' mlog' f.func e.strand) :
    AtByte P (ops ++ [e]) log' mlog' e.isRead
      (if inSeries f.previousAccessInParallel o = true then some (f.maSetFn e.accId o) else o) := by
  obtain ⟨pre, x, hst, hrel, hpre, hops⟩ := h
  have hser := inSeries_eq hj hrel
  refine ⟨pre ++ [e.strandAccess],
    Location.update (fun y => P.parallel y.1 e.strand) e.strandAccess x,
    hst.update (e := e.strandAccess) hP.serialOrder rfl fun s hs => ?_, ?_, fun s hs => ?_,
    fun e' he' hr => ?_⟩
  · obtain ⟨e', he', rfl⟩ := hpre s hs
    exact hle e' he'
  · cases hin : inSeries f.previousAccessInParallel o with
    | true =>
      rw [if_pos rfl, locationUpdate_of_inSeries (hser.symm.trans hin)]
      refine .some ?_
      rw [(f.maSetFn_func e.accId o).1]
      exact hnew hin
    | false =>
      rw [if_neg Bool.false_ne_true, locationUpdate_of_not_inSeries (hser.symm.trans hin)]
      cases hrel with
      | none => exact .none
      | some hl => exact .some (hlog hl)
  · rcases List.mem_append.1 hs with hs | hs
    · obtain ⟨e', he', rfl⟩ := hpre s hs
      exact ⟨e', List.mem_append_left _ he', rfl⟩
    · exact ⟨e, by simp, (List.mem_singleton.1 hs).symm⟩
  · rcases List.mem_append.1 he' with he' | he'
    · exact (hops e' he' hr).imp_left fun h => List.mem_append_left _ h
    · rw [List.mem_singleton.1 he']
      exact .inl (List.mem_append_right _ (List.mem_singleton_self _))

end Cilksan
