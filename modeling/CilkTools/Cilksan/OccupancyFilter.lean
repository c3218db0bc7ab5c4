/-
The occupancy filter of the slow path: an access of bytes that the strand has
all accessed before is dropped, on the grounds that the shadow memory has an
entry for it.

`dropsAccounted_iff` says when it has one: clearing a range takes the entries
away and leaves the occupancy bits.
-/
import CilkTools.Cilksan.ByteUpdates
import CilkTools.Cilksan.Occupancy

namespace Cilksan

/-- What a strand does: accesses on the slow path, a free being a write, and
ranges that are cleared, for an allocation or a stack frame that is popped. -/
inductive StrandOp
  | access (isRead : Bool) (addr memSize accId : Nat)
  | clear (start size : Nat)
  deriving DecidableEq, Repr

namespace SimpleShadowMem

def dictionary (m : SimpleShadowMem) (isRead : Bool) : SimpleDictionary :=
  if isRead then m.reads else m.writes

def strandStep (f : Strand) (m : SimpleShadowMem) : StrandOp → SimpleShadowMem
  | .access isRead addr memSize accId =>
    if memSize = 0 then m else (m.checkRacesAndUpdate f accId isRead addr memSize).1
  | .clear start size => if size = 0 then m else m.clear start size

/-- The filter reports the whole range occupied. -/
def Drops (m : SimpleShadowMem) (isRead : Bool) (addr memSize : Nat) : Prop :=
  (m.setOccupied isRead addr memSize).1 = false

structure Ok (m : SimpleShadowMem) : Prop where
  wf : ∀ isRead, (m.dictionary isRead).table.WF
  occupancy : ∀ isRead, (m.dictionary isRead).OccupancyOk

end SimpleShadowMem

/-- One of the accesses of the strand so far recorded `x` at the byte. -/
def RecordedIn (f : Strand) (past : List StrandOp) (isRead : Bool) (b : Nat)
    (x : MemoryAccess) : Prop :=
  ∃ addr memSize, .access isRead addr memSize x.accId ∈ past ∧ addr ≤ b ∧ b < addr + memSize ∧
  x.func = f.func

/-- Where the operation is dropped, the dictionary has an entry for each byte:
the strand's own, or a parallel one. -/
def AccountsFor (f : Strand) (past : List StrandOp) (m : SimpleShadowMem) : StrandOp → Prop
  | .access isRead addr memSize _ =>
    m.Drops isRead addr memSize → ∀ b, addr ≤ b → b < addr + memSize →
      ∃ x, (m.dictionary isRead).table.get b = some x ∧
      (f.previousAccessInParallel x = true ∨ RecordedIn f past isRead b x)
  | .clear _ _ => True

/-- So it is at every operation of a run. -/
def DropsAccounted (f : Strand) : List StrandOp → SimpleShadowMem → List StrandOp → Prop
  | _, _, [] => True
  | past, m, op :: ops =>
    AccountsFor f past m op ∧ DropsAccounted f (past ++ [op]) (m.strandStep f op) ops

/-- The bytes that a strand has read, or written, so far, and those of them
that were cleared since. -/
structure SeenBytes where
  accessed : Nat → Bool := fun _ => false
  cleared : Nat → Bool := fun _ => false

namespace SeenBytes

/-- The range has no byte that is new. -/
def again (s : SeenBytes) (addr memSize : Nat) : Bool :=
  (List.range memSize).all fun i => s.accessed (addr + i)

def step (isRead : Bool) (s : SeenBytes) : StrandOp → SeenBytes
  | .access isRead' addr memSize _ =>
    if isRead' ≠ isRead ∨ s.again addr memSize = true then s
    else {
      accessed := fun b => s.accessed b || decide (addr ≤ b ∧ b < addr + memSize)
      cleared := fun b => s.cleared b && !decide (addr ≤ b ∧ b < addr + memSize) }
  | .clear start size =>
    { s with
      cleared := fun b => s.cleared b || (s.accessed b && decide (start ≤ b ∧ b < start + size)) }

/-- An access with no byte that is new has none that was cleared either. -/
def RepeatOk (isRead : Bool) (s : SeenBytes) : StrandOp → Prop
  | .access isRead' addr memSize _ => isRead' = isRead → s.again addr memSize = true →
    ∀ b, addr ≤ b → b < addr + memSize → s.cleared b = false
  | .clear _ _ => True

def RepeatsOk (isRead : Bool) : SeenBytes → List StrandOp → Prop
  | _, [] => True
  | s, op :: ops => s.RepeatOk isRead op ∧ (s.step isRead op).RepeatsOk isRead ops

end SeenBytes

/-! ## Steps -/

theorem UpdateIterator.clear_pages {β : Type u} (d : Pages β) (accessed : Chunk) {i : Nat}
    (hi : (d i).isSome = true) : ((UpdateIterator.clear d accessed) i).isSome = true := by
  have hloop : ∀ (n : Nat) (d : Pages β) (accessed : Chunk), (d i).isSome = true →
      ((UpdateIterator.clearLoop n d accessed) i).isSome = true := by
    intro n
    induction n with
    | zero => exact fun _ _ h => h
    | succ n ih =>
      intro d accessed h
      unfold UpdateIterator.clearLoop
      generalize QueryIterator.nextPage d accessed.size accessed = accessed₁
      simp only
      generalize QueryIterator.nextLine d accessed₁.size accessed₁ = accessed₂
      by_cases h₁ : accessed₁.isEmpty = true
      · rwa [if_pos h₁]
      · rw [if_neg h₁]
        by_cases h₂ : accessed₂.isEmpty = true
        · rwa [if_pos h₂]
        · rw [if_neg h₂]
          cases d.getLine accessed₂.addr with
          | none => exact h
          | some l =>
            simp only
            split
            · exact Pages.page_setLine _ _ _ h
            · exact ih _ _ (Pages.page_setLine _ _ _ h)
  unfold UpdateIterator.clear
  split
  · exact hi
  · exact hloop _ _ _ hi

/-- An update sets each byte of the range or leaves a parallel entry there. -/
theorem update_bytes (f : Strand) (accId : Nat) {d : Pages MemoryAccess} {p n : Nat} (hw : d.WF)
    (hm : d.Mapped p (p + n)) :
    (update f accId d p n).WF ∧
    (∀ i, (d i).isSome = true → ((update f accId d p n) i).isSome = true) ∧
      (∀ b, ¬ (p ≤ b ∧ b < p + n) → (update f accId d p n).get b = d.get b) ∧
      ∀ b, p ≤ b → b < p + n → (update f accId d p n).get b = some (f.maSetFn accId (d.get b)) ∨
        ∃ y, d.get b = some y ∧ f.previousAccessInParallel y = true ∧
        (update f accId d p n).get b = some y := by
  obtain ⟨xs, d', hwalk, h, -⟩ := update_walk f accId hw hm
  rw [h]
  have hkey := verFunc_par f
  refine ⟨hwalk.wf hw, fun i hi => hwalk.pages hi, fun b hb => hwalk.get_of_lt (by omega),
    fun b h₁ h₂ => ?_⟩
  by_cases hr :
    UpdateIterator.Replaced MemoryAccess.verFunc f.previousAccessInParallel d p (p + n) b
  · exact .inl (hwalk.get_replaced hw hkey h₁ h₂ hr)
  · have hkept := hwalk.get_not_replaced hw hkey h₁ hr
    cases hy : d.get b with
    | none => exact absurd (.inl (by rw [hy]; rfl)) hr
    | some y =>
      refine .inr ⟨y, rfl, ?_, hkept.trans hy⟩
      refine Classical.byContradiction fun hp => hr (.inl ?_)
      rw [hy]
      simpa [inSeries] using hp

theorem SimpleDictionary.OccupancyOk.setTables {d : SimpleDictionary} (hd : d.OccupancyOk)
    {table : Pages MemoryAccess}
    (lockerTable : Pages (LockerList MemoryAccess)) (hp : ∀ i, (d.table i).isSome = true →
      (table i).isSome = true) :
    ({ d with table, lockerTable } : SimpleDictionary).OccupancyOk where
  page b hb := hp _ (hd.page b hb)
  touched b hb := hd.touched b hb

/-- What an access of `n` bytes at `p` does to the dictionary of its kind. -/
structure Accesses (f : Strand) (accId p n : Nat) (d d' : SimpleDictionary) : Prop where
  wf : d'.table.WF
  ok : d'.OccupancyOk
  bits : ∀ b, d'.occupied b = (d.occupied b || decide (p ≤ b ∧ b < p + n))
  outside : ∀ b, ¬ (p ≤ b ∧ b < p + n) → d'.table.get b = d.table.get b
  dropped : (∀ b, p ≤ b → b < p + n → d.occupied b = true) → ∀ b, d'.table.get b = d.table.get b
  recorded : (∃ b, p ≤ b ∧ b < p + n ∧ d.occupied b = false) → ∀ b, p ≤ b → b < p + n →
    d'.table.get b = some (f.maSetFn accId (d.table.get b)) ∨
      ∃ y, d.table.get b = some y ∧ f.previousAccessInParallel y = true ∧ d'.table.get b = some y

theorem Accesses.of_dropped (f : Strand) (accId : Nat) {p n : Nat} {d d' : SimpleDictionary}
    (hw : d.table.WF)
    (ho : Occupies p (p + n) d d') (hd : ¬ ∃ b, p ≤ b ∧ b < p + n ∧ d.occupied b = false) :
    Accesses f accId p n d d' where
  wf := ho.wf hw
  ok := ho.ok
  bits := ho.bits
  outside b _ := ho.get b
  dropped _ := ho.get
  recorded h := absurd h hd

theorem Accesses.of_update (f : Strand) (accId : Nat) {p n : Nat} {d d' : SimpleDictionary}
    (hw : d.table.WF)
    (ho : Occupies p (p + n) d d') (hd : ∃ b, p ≤ b ∧ b < p + n ∧ d.occupied b = false) :
    Accesses f accId p n d { d' with table := update f accId d'.table p n } := by
  obtain ⟨hw', hpages, hout, hin⟩ := update_bytes f accId (ho.wf hw) ho.mapped
  refine ⟨hw', ho.ok.setTables _ hpages, ho.bits, fun b hb => (hout b hb).trans (ho.get b),
    fun hall => ?_, fun _ b h₁ h₂ => ?_⟩
  · obtain ⟨b, h₁, h₂, hb⟩ := hd
    rw [hall b h₁ h₂] at hb
    cases hb
  · rw [← ho.get b]
    exact hin b h₁ h₂

namespace SimpleShadowMem

variable {f : Strand} {m : SimpleShadowMem} {isRead isRead' : Bool} {addr memSize accId : Nat}

theorem setOccupied_eq {found : Bool} {d' : SimpleDictionary}
    (h : (m.dictionary isRead).setOccupied addr memSize = (found, d')) :
    m.setOccupied isRead addr memSize = (found, if isRead then { m with reads := d' }
      else { m with writes := d' }) := by
  cases isRead with
  | true =>
    have h' : m.reads.setOccupied addr memSize = (found, d') := h
    simp [setOccupied, h']
  | false =>
    have h' : m.writes.setOccupied addr memSize = (found, d') := h
    simp [setOccupied, h']

/-- An access that the filter passes on. -/
theorem checkRacesAndUpdate_found (f : Strand) (accId : Nat) {d' : SimpleDictionary}
    (hw : (m.dictionary isRead).table.WF)
    (hset : (m.dictionary isRead).setOccupied addr memSize = (true, d'))
    (hocc : Occupies addr (addr + memSize) (m.dictionary isRead) d') :
    (m.checkRacesAndUpdate f accId isRead addr memSize).1.dictionary isRead =
      { d' with table := update f accId d'.table addr memSize } := by
  have heq := setOccupied_eq hset
  simp only [checkRacesAndUpdate, heq]
  cases isRead with
  | true => rfl
  | false =>
    have hfst := checkAndUpdateWrite_fst f accId (hocc.wf hw) hocc.mapped
    simp [checkRacesAndUpdateWithWrite, dictionary, hfst]

theorem checkRacesAndUpdate_dictionary (f : Strand) (accId : Nat)
    (hw : (m.dictionary isRead).table.WF)
    (ho : (m.dictionary isRead).OccupancyOk) (addr memSize : Nat) :
    Accesses f accId addr memSize (m.dictionary isRead)
      ((m.checkRacesAndUpdate f accId isRead addr memSize).1.dictionary isRead) ∧
    (m.Drops isRead addr memSize ↔
      ¬ ∃ b, addr ≤ b ∧ b < addr + memSize ∧ (m.dictionary isRead).occupied b = false) := by
  obtain ⟨found, d', hset, hocc, hfound⟩ := setOccupied_spec ho addr memSize
  have heq := setOccupied_eq hset
  refine ⟨?_, by rw [Drops, heq, ← hfound]; simp⟩
  cases found with
  | false =>
    have hd := mt hfound.2 (by simp)
    have hres : (m.checkRacesAndUpdate f accId isRead addr memSize).1.dictionary isRead = d' := by
      simp only [checkRacesAndUpdate, heq]
      cases isRead <;> rfl
    rw [hres]
    exact .of_dropped f accId hw hocc hd
  | true =>
    rw [checkRacesAndUpdate_found f accId hw hset hocc]
    exact .of_update f accId hw hocc (hfound.1 rfl)

/-- The other dictionary is only looked at. -/
theorem dictionary_other (f : Strand) (m : SimpleShadowMem) (accId addr memSize : Nat)
    (h : isRead' ≠ isRead) :
    (m.checkRacesAndUpdate f accId isRead' addr memSize).1.dictionary isRead =
    m.dictionary isRead := by
  cases hset : (m.dictionary isRead').setOccupied addr memSize with
  | mk found d' =>
    have heq := setOccupied_eq hset
    simp only [checkRacesAndUpdate, heq]
    cases isRead' <;> cases isRead
    · exact absurd rfl h
    · cases found <;> rfl
    · cases found <;> rfl
    · exact absurd rfl h

theorem clear_dictionary (m : SimpleShadowMem) (isRead : Bool) (start size : Nat) :
    (m.clear start size).dictionary isRead = (m.dictionary isRead).clear start size := by
  cases isRead <;> rfl

end SimpleShadowMem

/-! ## Runs -/

/-- The bytes seen are those whose bits are set; those not cleared have an entry, and those cleared
none. -/
structure SeenBytes.Tracks (f : Strand) (past : List StrandOp) (isRead : Bool) (s : SeenBytes)
    (d : SimpleDictionary) : Prop where
  wf : d.table.WF
  ok : d.OccupancyOk
  accessed : ∀ b, d.occupied b = s.accessed b
  cleared : ∀ b, s.cleared b = true → d.table.get b = none
  held : ∀ b, s.accessed b = true → s.cleared b = false →
    ∃ x, d.table.get b = some x ∧
    (f.previousAccessInParallel x = true ∨ RecordedIn f past isRead b x)

theorem RecordedIn.snoc {f : Strand} {past : List StrandOp} {isRead : Bool} {b : Nat}
    {x : MemoryAccess}
    (h : RecordedIn f past isRead b x) (op : StrandOp) :
    RecordedIn f (past ++ [op]) isRead b x := by
  obtain ⟨addr, n, hmem, hb⟩ := h
  exact ⟨addr, n, List.mem_append_left _ hmem, hb⟩

namespace SeenBytes

variable {f : Strand} {past : List StrandOp} {isRead : Bool} {s : SeenBytes}
  {d d' : SimpleDictionary}

theorem again_iff {addr n : Nat} : s.again addr n = true ↔
    ∀ b, addr ≤ b → b < addr + n → s.accessed b = true := by
  simp only [again, List.all_eq_true, List.mem_range]
  constructor
  · intro h b h₁ h₂
    have hb := h (b - addr) (by omega)
    rwa [Nat.add_sub_cancel' h₁] at hb
  · intro h i hi
    exact h _ (by omega) (by omega)

theorem Tracks.again (h : s.Tracks f past isRead d) {addr n : Nat} :
    s.again addr n = true ↔ ¬ ∃ b, addr ≤ b ∧ b < addr + n ∧ d.occupied b = false := by
  rw [again_iff]
  simp only [h.accessed, not_exists, not_and, Bool.not_eq_false]

theorem Tracks.snoc (h : s.Tracks f past isRead d) (op : StrandOp) :
    s.Tracks f (past ++ [op]) isRead d where
  wf := h.wf
  ok := h.ok
  accessed := h.accessed
  cleared := h.cleared
  held b h₁ h₂ := by
    obtain ⟨x, hx, hr⟩ := h.held b h₁ h₂
    exact ⟨x, hx, hr.imp id fun hr => hr.snoc op⟩

/-- An access of the kind. -/
theorem Tracks.access (h : s.Tracks f past isRead d) {addr n accId : Nat}
    (ha : Accesses f accId addr n d d') :
    (s.step isRead (.access isRead addr n accId)).Tracks f
    (past ++ [.access isRead addr n accId]) isRead d' := by
  have hs := h.snoc (.access isRead addr n accId)
  by_cases hagain : s.again addr n = true
  · have hall := again_iff.1 hagain
    have hget := ha.dropped fun b h₁ h₂ => (h.accessed b).trans (hall b h₁ h₂)
    have hstep : s.step isRead (.access isRead addr n accId) = s := if_pos (.inr hagain)
    rw [hstep]
    refine ⟨ha.wf, ha.ok, fun b => ?_, fun b hb => (hget b).trans (h.cleared b hb),
      fun b h₁ h₂ => ?_⟩
    · rw [ha.bits, h.accessed]
      by_cases hb : addr ≤ b ∧ b < addr + n
      · rw [hall b hb.1 hb.2, Bool.true_or]
      · rw [decide_eq_false hb, Bool.or_false]
    · rw [hget]
      exact hs.held b h₁ h₂
  · have hnew : ∃ b, addr ≤ b ∧ b < addr + n ∧ d.occupied b = false :=
      Classical.byContradiction fun hn => hagain (h.again.2 hn)
    have hstep : s.step isRead (.access isRead addr n accId) = {
        accessed := fun b => s.accessed b || decide (addr ≤ b ∧ b < addr + n)
        cleared := fun b => s.cleared b && !decide (addr ≤ b ∧ b < addr + n) } :=
      if_neg fun hc => hc.elim (fun hne => hne rfl) hagain
    rw [hstep]
    refine ⟨ha.wf, ha.ok, fun b => by rw [ha.bits, h.accessed], fun b hb => ?_, fun b h₁ h₂ => ?_⟩
    · simp only [Bool.and_eq_true, Bool.not_eq_true', decide_eq_false_iff_not] at hb
      rw [ha.outside b hb.2]
      exact h.cleared b hb.1
    · by_cases hb : addr ≤ b ∧ b < addr + n
      · rcases ha.recorded hnew b hb.1 hb.2 with hset | hkept
        · obtain ⟨hfunc, hid⟩ := Strand.maSetFn_func f accId (d.table.get b)
          exact ⟨_, hset, .inr ⟨addr, n, by rw [hid]; simp, hb.1, hb.2, hfunc⟩⟩
        · obtain ⟨y, -, hp, hy⟩ := hkept
          exact ⟨y, hy, .inl hp⟩
      · simp only [decide_eq_false hb, Bool.or_false, Bool.not_false, Bool.and_true] at h₁ h₂
        rw [ha.outside b hb]
        exact hs.held b h₁ h₂

theorem Tracks.clear (h : s.Tracks f past isRead d) (start size : Nat) :
    (s.step isRead (.clear start size)).Tracks f (past ++ [.clear start size]) isRead
    (d.clear start size) := by
  have hs := h.snoc (.clear start size)
  have hchunk := Chunk.mk_eq_upTo start size
  obtain ⟨hw, hget⟩ := UpdateIterator.clear_spec h.wf start (start + size)
  rw [← hchunk] at hw hget
  refine ⟨hw, h.ok.setTables _ fun i hi => UpdateIterator.clear_pages _ _ hi, h.accessed,
    fun b hb => ?_, fun b h₁ h₂ => ?_⟩
  · show (UpdateIterator.clear d.table ⟨start, size⟩).get b = none
    rw [hget]
    simp only [step, Bool.or_eq_true, Bool.and_eq_true, decide_eq_true_eq] at hb
    rcases hb with hb | hb
    · split
      · rfl
      · exact h.cleared b hb
    · rw [if_pos hb.2]
  · have hacc : s.accessed b = true := h₁
    simp only [step, hacc, Bool.true_and, Bool.or_eq_false_iff, decide_eq_false_iff_not] at h₂
    show ∃ x, (UpdateIterator.clear d.table ⟨start, size⟩).get b = some x ∧ _
    rw [hget, if_neg h₂.2]
    exact hs.held b hacc h₂.1

/-- A dropped access is accounted for when none of its bytes was cleared. -/
theorem Tracks.accountsFor_iff (h : s.Tracks f past isRead d) {addr n : Nat}
    (hagain : s.again addr n = true) : (∀ b, addr ≤ b → b < addr + n →
      ∃ x, d.table.get b = some x ∧
      (f.previousAccessInParallel x = true ∨ RecordedIn f past isRead b x)) ↔
      ∀ b, addr ≤ b → b < addr + n → s.cleared b = false := by
  constructor
  · intro hall b h₁ h₂
    obtain ⟨x, hx, -⟩ := hall b h₁ h₂
    refine Bool.eq_false_iff.2 fun hc => ?_
    rw [h.cleared b hc] at hx
    cases hx
  · intro hall b h₁ h₂
    exact h.held b (again_iff.1 hagain b h₁ h₂) (hall b h₁ h₂)

end SeenBytes

/-- Both kinds of accesses. -/
theorem dropsAccounted_of_tracks (f : Strand) (ops : List StrandOp) :
    ∀ {past : List StrandOp} {m : SimpleShadowMem}
    {s : Bool → SeenBytes}, (∀ isRead, (s isRead).Tracks f past isRead (m.dictionary isRead)) →
    (DropsAccounted f past m ops ↔ ∀ isRead, (s isRead).RepeatsOk isRead ops) := by
  induction ops with
  | nil => exact fun _ => ⟨fun _ _ => trivial, fun _ => trivial⟩
  | cons op ops ih =>
    intro past m s h
    have hstep : ∀ isRead, ((s isRead).step isRead op).Tracks f (past ++ [op]) isRead
        ((m.strandStep f op).dictionary isRead) := by
      intro isRead
      cases op with
      | access isRead' addr n accId =>
        by_cases hn : n = 0
        · subst hn
          have hs : (s isRead).step isRead (.access isRead' addr 0 accId) = s isRead :=
            if_pos (.inr rfl)
          rw [hs]
          exact (h isRead).snoc _
        · rw [SimpleShadowMem.strandStep, if_neg hn]
          by_cases hk : isRead' = isRead
          · subst hk
            exact (h isRead').access
              (SimpleShadowMem.checkRacesAndUpdate_dictionary f accId (h isRead').wf
                (h isRead').ok addr n).1
          · have hs : (s isRead).step isRead (.access isRead' addr n accId) = s isRead :=
              if_pos (.inl hk)
            rw [hs, SimpleShadowMem.dictionary_other f m accId addr n hk]
            exact (h isRead).snoc _
      | clear start size =>
        have hm : m.strandStep f (.clear start size) = m.clear start size := by
          by_cases hn : size = 0
          · subst hn
            rfl
          · exact if_neg hn
        rw [hm, SimpleShadowMem.clear_dictionary]
        exact (h isRead).clear start size
    have hop : AccountsFor f past m op ↔ ∀ isRead, (s isRead).RepeatOk isRead op := by
      cases op with
      | access isRead addr n accId =>
        have hdrop : m.Drops isRead addr n ↔ (s isRead).again addr n = true :=
          (SimpleShadowMem.checkRacesAndUpdate_dictionary f accId (h isRead).wf
            (h isRead).ok addr n).2.trans (h isRead).again.symm
        constructor
        · intro ha k hk hagain
          subst hk
          exact ((h isRead).accountsFor_iff hagain).1 (ha (hdrop.2 hagain))
        · intro hr hd
          have hagain := hdrop.1 hd
          exact ((h isRead).accountsFor_iff hagain).2 (hr isRead rfl hagain)
      | clear start size => exact ⟨fun _ _ => trivial, fun _ => trivial⟩
    rw [DropsAccounted, hop, ih hstep]
    exact forall_and.symm

theorem SeenBytes.Tracks.init (f : Strand) {m : SimpleShadowMem} (hm : m.Ok) (isRead : Bool) :
    ({} : SeenBytes).Tracks f [] isRead (m.clearOccupied.dictionary isRead) := by
  have hdict : m.clearOccupied.dictionary isRead = (m.dictionary isRead).clearOccupied := by
    cases isRead <;> rfl
  have hocc := occupied_clearOccupied (hm.occupancy isRead)
  rw [hdict]
  exact ⟨hm.wf isRead, .of_not_occupied hocc, hocc, fun _ h => Bool.noConfusion h,
    fun _ h => Bool.noConfusion h⟩

/-- **The occupancy filter**: in a run of a strand, the accesses it drops are
accounted for exactly when none of them is of a byte that was cleared since
the strand's last access of its kind that was not dropped. -/
theorem dropsAccounted_iff (f : Strand) {m : SimpleShadowMem} (hm : m.Ok) (ops : List StrandOp) :
    DropsAccounted f [] m.clearOccupied ops ↔ ∀ isRead, ({} : SeenBytes).RepeatsOk isRead ops :=
  dropsAccounted_of_tracks f ops (.init f hm)

theorem SimpleShadowMem.Ok.empty : ({} : SimpleShadowMem).Ok where
  wf isRead := by cases isRead <;> exact nofun
  occupancy isRead := .of_not_occupied fun b => by cases isRead <;> exact BitVec.getLsbD_zero

def onlyStrand : Strand := { func := 0, version := 0, inParallel := fun _ _ => false }

/-- Eight bytes are written, allocated anew, and written again. -/
def rewriteAllocated : List StrandOp := [.access false 8 8 1, .clear 8 8, .access false 8 8 2]

theorem dropsAccounted_iff_rewrite :
    DropsAccounted onlyStrand [] ({} : SimpleShadowMem).clearOccupied
    [.access false 8 8 1, .access false 8 8 2, .clear 8 8] ↔
      ∀ isRead, ({} : SeenBytes).RepeatsOk isRead [.access false 8 8 1, .access false 8 8 2,
        .clear 8 8] :=
  dropsAccounted_iff onlyStrand .empty _

/-- The second write is dropped, and nothing is recorded of it. -/
theorem not_dropsAccounted :
    ¬ DropsAccounted onlyStrand [] ({} : SimpleShadowMem).clearOccupied rewriteAllocated := by
  intro h
  obtain ⟨-, -, h₃, -⟩ := h
  have hdrop :
      (((({} : SimpleShadowMem).clearOccupied.strandStep onlyStrand
        (.access false 8 8 1)).strandStep onlyStrand
      (.clear 8 8)).setOccupied false 8 8).1 = false := by decide +kernel
  have hget :
      ((({} : SimpleShadowMem).clearOccupied.strandStep onlyStrand
        (.access false 8 8 1)).strandStep onlyStrand
      (.clear 8 8)).writes.table.get 8 = none := by decide +kernel
  obtain ⟨x, hx, -⟩ := h₃ hdrop 8 (Nat.le_refl _) (by decide)
  cases hget.symm.trans hx

end Cilksan
