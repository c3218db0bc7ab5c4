/-
A line of the shadow memory as it is stored (`AbstractLine_t`), its fields in
one word.

`Rep` says that a stored line is one with separate fields: each operation on the
stored line does what the operation of `Line` does, and reads and writes entries
of its own array only.
-/
import CilkTools.Cilksan.DataPtr
import CilkTools.Cilksan.SetRange
import CilkTools.Cilksan.UpdateLoop

namespace Cilksan

open DataPtr

/-- Where new arrays are: the k-th is at `addr k`. A pointer has 48 bits. -/
structure Allocator where
  addr : Nat → BitVec 64
  nonnull : ∀ k, addr k ≠ 0#64
  lt : ∀ k, (addr k).toNat < 2 ^ 48

/-- The fields of the word that arithmetic is meant for. -/
inductive Field
  | data
  | count
  | grain
  deriving DecidableEq, Repr

/-- The array, if the line has one, at its address. The code keeps neither the
number of arrays made so far nor the updates of fields: each with the word
before and after it, the last one first. -/
structure PackedLine (β : Type u) where
  dataPtr : BitVec 64 := 0#64
  array : Option (BitVec 64 × List (Option β)) := none
  allocated : Nat := 0
  updates : List (Field × BitVec 64 × BitVec 64) := []

namespace PackedLine

variable {β : Type u}

def update (field : Field) (dataPtr : BitVec 64) (l : PackedLine β) : PackedLine β :=
  { l with dataPtr, updates := (field, l.dataPtr, dataPtr) :: l.updates }

/-- A new line. -/
def new (lgGrainsize : Nat) : PackedLine β := update .grain (setLgGrainsize 0#64 lgGrainsize) {}

/-- `data[idx]`; there is nothing outside of the array, and nothing at another
address. -/
def load (l : PackedLine β) (data : BitVec 64) (idx : Nat) : Option (Option β) :=
  match l.array with
  | some (addr, entries) => if addr = data then entries[idx]? else none
  | none => none

def assign (l : PackedLine β) (data : BitVec 64) (idx : Nat) (entry : Option β) :
    Option (PackedLine β) :=
  match l.array with
  | some (addr, entries) =>
    if addr = data ∧ idx < entries.length then
      some { l with array := some (addr, entries.set idx entry) } else none
  | none => none

def deallocate (l : PackedLine β) (data : BitVec 64) : Option (PackedLine β) :=
  match l.array with
  | some (addr, _) => if addr = data then some { l with array := none } else none
  | none => none

def getIdx (l : PackedLine β) (byte : Nat) : Nat := byte / 2 ^ getLgGrainsize l.dataPtr

section

variable (alloc : Allocator)

/-- The pointer to a new array. -/
def allocate (l : PackedLine β) (entries : List (Option β)) : PackedLine β :=
  let newData := alloc.addr l.allocated
  update .data (setData l.dataPtr newData)
    { l with array := some (newData, entries), allocated := l.allocated + 1 }

def materialize (l : PackedLine β) : PackedLine β :=
  l.allocate alloc (List.replicate (Line.numData (getLgGrainsize l.dataPtr)) none)

/-- One entry, over those of the finer array in its place. -/
def copyEntry (replFactor : Nat) (newData : List (Option β)) (i : Nat) (entry : Option β) :
    Option (List (Option β)) :=
  if entry.isSome then
    (List.range' (replFactor * i) replFactor).foldlM
      (fun newData j => if j < newData.length then some (newData.set j entry) else none) newData
  else some newData

/-- The entries from `i` on. -/
def copyLoop (l : PackedLine β) (data : BitVec 64) (replFactor : Nat) :
    Nat → Nat → List (Option β) → Option (List (Option β))
  | 0, _, newData => some newData
  | n + 1, i, newData =>
    (l.load data i).bind fun entry =>
      (copyEntry replFactor newData i entry).bind fun newData => copyLoop l data replFactor n
        (i + 1) newData

/-- The new array with the old entries, and the count that goes with it. -/
def replicateEntries (l : PackedLine β) (data : BitVec 64) (newLgGrainsize : Nat) :
    Option (PackedLine β × List (Option β)) :=
  let newData := List.replicate (Line.numData newLgGrainsize) none
  if !noNonNullEls l.dataPtr then
    let lgGrainsize := getLgGrainsize l.dataPtr
    let replFactor := 2 ^ lgGrainsize / 2 ^ newLgGrainsize
    (l.copyLoop data replFactor (Line.numData lgGrainsize) 0 newData).map fun newData =>
      (l.update .count (scaleNumNonNullEls l.dataPtr replFactor), newData)
  else some (l, newData)

def refine (l : PackedLine β) (newLgGrainsize : Nat) : Option (PackedLine β) :=
  if !isMaterialized l.dataPtr then some (l.update .grain (setLgGrainsize l.dataPtr newLgGrainsize))
  else
    let data := getData l.dataPtr
    (l.replicateEntries data newLgGrainsize).bind fun (l, newData) =>
      (l.deallocate data).map fun l =>
        let l := l.allocate alloc newData
        l.update .grain (setLgGrainsize l.dataPtr newLgGrainsize)

end

def reset (l : PackedLine β) : Option (PackedLine β) :=
  let l := if isMaterialized l.dataPtr then
      (l.deallocate (getData l.dataPtr)).map fun l => { l with dataPtr := 0#64 }
    else some l
  l.map fun l => l.update .grain (setLgGrainsize l.dataPtr LG_LINE_SIZE)

/-- The entry, counted if it was invalid, becomes what `setFn` makes of it. -/
def store (setFn : Option β → β) (data : BitVec 64) (l : PackedLine β) (idx : Nat) :
    Option (PackedLine β) :=
  (l.load data idx).bind fun entry =>
    let l := if entry.isSome then l else l.update .count (incNumNonNullEls l.dataPtr)
    l.assign data idx (some (setFn entry))

def invalidate (data : BitVec 64) (l : PackedLine β) (idx : Nat) : Option (PackedLine β) :=
  (l.assign data idx none).map fun l => l.update .count (decNumNonNullEls l.dataPtr)

/-- The loop of `set`, over entries from `data` on, at most once for each byte of
a line. -/
def setLoop (setFn : Option β → β) (data : BitVec 64) (accessedLgGrainsize : Nat) :
    Nat → PackedLine β → Chunk → Option (PackedLine β × Chunk)
  | 0, _, _ => none
  | n + 1, l, accessed =>
    (l.store setFn data (l.getIdx (byte accessed.addr))).bind fun l =>
      let accessed := accessed.next accessedLgGrainsize
      if accessed.isEmpty then some (l, accessed)
      else if !isLineStart accessed.addr then setLoop setFn data accessedLgGrainsize n l accessed
      else some (l, accessed)

def insertLoop {κ : Type v} [DecidableEq κ] (key : β → κ) (setFn : Option β → β) (data : BitVec 64)
    (previous : Option β)
    (accessedLgGrainsize : Nat) : Nat → PackedLine β → Chunk → Option (PackedLine β × Chunk)
  | 0, _, _ => none
  | n + 1, l, accessed =>
    (l.store setFn data (l.getIdx (byte accessed.addr))).bind fun l =>
      let accessed := accessed.next accessedLgGrainsize
      if accessed.isEmpty then some (l, accessed)
      else if isLineStart accessed.addr then some (l, accessed)
      else
        (l.load data (l.getIdx (byte accessed.addr))).bind fun entry =>
          if Line.goesOn key previous entry then
            insertLoop key setFn data previous accessedLgGrainsize n l accessed
          else some (l, accessed)

/-- One entry of `clear`: the line is reset when its last valid entry goes. -/
def clearEntry (data : BitVec 64) (accessedLgGrainsize : Nat) (l : PackedLine β)
    (accessed : Chunk) : Option (PackedLine β × Chunk) :=
  let idx := l.getIdx (byte accessed.addr)
  (l.load data idx).bind fun entry =>
    if entry.isSome then
      (l.invalidate data idx).bind fun l =>
        if noNonNullEls l.dataPtr then
          (if getLgGrainsize l.dataPtr ≠ LG_LINE_SIZE then l.reset else some l).map fun l =>
            (l, accessed.next LG_LINE_SIZE)
        else some (l, accessed.next accessedLgGrainsize)
    else some (l, accessed.next accessedLgGrainsize)

def clearLoop (data : BitVec 64) (accessedLgGrainsize : Nat) :
    Nat → PackedLine β → Chunk → Option (PackedLine β × Chunk)
  | 0, _, _ => none
  | n + 1, l, accessed =>
    (l.clearEntry data accessedLgGrainsize accessed).bind fun (l, accessed) =>
      if !accessed.isEmpty && !isLineStart accessed.addr then
        clearLoop data accessedLgGrainsize n l accessed
      else some (l, accessed)

section

variable (alloc : Allocator)

def refineTo (l : PackedLine β) (lgGrainsize : Nat) : Option (PackedLine β) :=
  if getLgGrainsize l.dataPtr > lgGrainsize then l.refine alloc lgGrainsize else some l

def materialized (l : PackedLine β) : PackedLine β :=
  if isMaterialized l.dataPtr then l else l.materialize alloc

def set (setFn : Option β → β) (l : PackedLine β) (accessed : Chunk) :
    Option (PackedLine β × Chunk) :=
  let accessedLgGrainsize := accessed.getLgGrainsize
  if accessedLgGrainsize = LG_LINE_SIZE then
    (if getLgGrainsize l.dataPtr ≠ LG_LINE_SIZE then l.reset else some l).bind fun l =>
      let l := l.materialized alloc
      (l.store setFn (getData l.dataPtr) 0).map fun l => (l, accessed.next accessedLgGrainsize)
  else
    let lgGrainsize := getLgGrainsize l.dataPtr
    (l.refineTo alloc accessedLgGrainsize).bind fun l =>
      let accessedLgGrainsize :=
        if lgGrainsize < accessedLgGrainsize then lgGrainsize else accessedLgGrainsize
      let l := l.materialized alloc
      setLoop setFn (getData l.dataPtr) accessedLgGrainsize LINE_SIZE l accessed

def insert {κ : Type v} [DecidableEq κ] (key : β → κ) (setFn : Option β → β) (l : PackedLine β)
    (accessed : Chunk) (prevIdx : Nat) : Option (PackedLine β × Chunk) :=
  let accessedLgGrainsize := accessed.getLgGrainsize
  let l := l.materialized alloc
  if accessedLgGrainsize = LG_LINE_SIZE ∧ getLgGrainsize l.dataPtr = LG_LINE_SIZE then
    (l.store setFn (getData l.dataPtr) 0).map fun l => (l, accessed.next accessedLgGrainsize)
  else
    let lgGrainsize := getLgGrainsize l.dataPtr
    (l.refineTo alloc accessedLgGrainsize).bind fun l =>
      let accessedLgGrainsize :=
        if lgGrainsize < accessedLgGrainsize then lgGrainsize else accessedLgGrainsize
      let data := getData l.dataPtr
      (l.load data prevIdx).bind fun previous =>
        insertLoop key setFn data previous accessedLgGrainsize LINE_SIZE l accessed

def clear (l : PackedLine β) (accessed : Chunk) : Option (PackedLine β × Chunk) :=
  let accessedLgGrainsize := accessed.getLgGrainsize
  if accessedLgGrainsize = LG_LINE_SIZE then
    (if !noNonNullEls l.dataPtr then l.reset else some l).map fun l =>
      (l, accessed.next accessedLgGrainsize)
  else
    let lgGrainsize := getLgGrainsize l.dataPtr
    (l.refineTo alloc accessedLgGrainsize).bind fun l =>
      let accessedLgGrainsize :=
        if lgGrainsize < accessedLgGrainsize then lgGrainsize else accessedLgGrainsize
      if noNonNullEls l.dataPtr then some (l, accessed.next LG_LINE_SIZE)
      else clearLoop (getData l.dataPtr) accessedLgGrainsize LINE_SIZE l accessed

/-- What `check_read_fast` does to the line of reads, and `check_write_fast` to
that of writes: a line that is finer than the access is left to the slow path. -/
def updateFast (par : β → Bool) (setFn : Option β → β) (l : PackedLine β) (addr memSize : Nat) :
    Option (PackedLine β) :=
  (l.refineTo alloc (ctz memSize)).bind fun l =>
    if 2 ^ getLgGrainsize l.dataPtr ≠ memSize % 2 ^ 32 then some l
    else
      let l := l.materialized alloc
      let data := getData l.dataPtr
      let idx := l.getIdx (byte addr)
      (l.load data idx).bind fun entry => if inSeries par entry then l.store setFn data
        idx else some l

end

/-! ## Separate fields -/

/-- An update of a field changes no other. -/
def Kept (field : Field) (before after : BitVec 64) : Prop :=
  (field ≠ .data → getData after = getData before) ∧
    (field ≠ .count → getNumNonNullEls after = getNumNonNullEls before) ∧
    (field ≠ .grain → getLgGrainsize after = getLgGrainsize before)

/-- The stored line `l` is the line `m`. -/
structure Rep (l : PackedLine β) (m : Line β) : Prop where
  wf : m.WF
  array : l.array = m.data.map (Prod.mk (getData l.dataPtr))
  packs : Packs l.dataPtr (getData l.dataPtr).toNat m.numNonNullEls m.lgGrainsize
  null : getData l.dataPtr = 0#64 ↔ m.data = none
  kept : ∀ u ∈ l.updates, Kept u.1 u.2.1 u.2.2

variable {l : PackedLine β} {m : Line β} {alloc : Allocator}

section

variable {w w' : BitVec 64} {p q n k g h : Nat}

theorem kept_data (h₁ : Packs w p n g) (h₂ : Packs w' q n g) : Kept .data w w' :=
  ⟨fun h => absurd rfl h, fun _ => by rw [h₁.count_eq, h₂.count_eq],
    fun _ => by rw [h₁.grain_eq, h₂.grain_eq]⟩

theorem kept_count (h₁ : Packs w p n g) (h₂ : Packs w' p k g) : Kept .count w w' :=
  ⟨fun _ => BitVec.eq_of_toNat_eq (by rw [h₁.data_eq, h₂.data_eq]), fun h => absurd rfl h,
    fun _ => by rw [h₁.grain_eq, h₂.grain_eq]⟩

theorem kept_grain (h₁ : Packs w p n g) (h₂ : Packs w' p n h) : Kept .grain w w' :=
  ⟨fun _ => BitVec.eq_of_toNat_eq (by rw [h₁.data_eq, h₂.data_eq]),
    fun _ => by rw [h₁.count_eq, h₂.count_eq], fun h => absurd rfl h⟩

end

theorem count_le (h : m.WF) : m.numNonNullEls ≤ 512 := by
  rw [h.count]
  cases hd : m.data with
  | none => simp
  | some ds =>
    refine Nat.le_trans List.countP_le_length ?_
    rw [Option.getD_some, h.length ds hd, Line.numData_eq h.le]
    exact Nat.pow_le_pow_right (by decide) (Nat.sub_le 9 _)

theorem getIdx_lt (h : m.WF) (addr : Nat) : m.getIdx (byte addr) < Line.numData m.lgGrainsize := by
  rw [Line.numData_eq h.le]
  exact entry_lt h.le addr

namespace Rep

theorem lgGrainsize (h : Rep l m) : getLgGrainsize l.dataPtr = m.lgGrainsize := h.packs.grain_eq

theorem isMaterialized (h : Rep l m) : isMaterialized l.dataPtr = m.isMaterialized := by
  unfold DataPtr.isMaterialized Line.isMaterialized
  rw [Bool.eq_iff_iff, bne_iff_ne, Ne, h.null, Option.isSome_iff_ne_none]

theorem noNonNullEls (h : Rep l m) : noNonNullEls l.dataPtr = m.isEmpty := by
  rw [Bool.eq_iff_iff, h.packs.noNonNullEls_iff, Line.isEmpty, beq_iff_eq]

theorem getIdx (h : Rep l m) (byte : Nat) : l.getIdx byte = m.getIdx byte := by
  unfold PackedLine.getIdx Line.getIdx
  rw [h.lgGrainsize]

/-- Of an array that is there, the entries are read. -/
theorem load (h : Rep l m) {ds : List (Option β)} (hd : m.data = some ds) (i : Nat) :
    l.load (getData l.dataPtr) i = ds[i]? := by
  unfold PackedLine.load
  simp only [h.array, hd, Option.map_some, if_true]

theorem loadEntry (h : Rep l m) (hm : m.isMaterialized = true) {i : Nat}
    (hi : i < Line.numData m.lgGrainsize) : l.load (getData l.dataPtr) i = some (m.entry i) := by
  obtain ⟨ds, hd⟩ := Option.isSome_iff_exists.1 hm
  have hlt : i < ds.length := by rwa [h.wf.length ds hd]
  rw [h.load hd, List.getElem?_eq_getElem hlt]
  simp [Line.entry, hd, hlt]

end Rep

theorem rep_new {g : Nat} (hg : g ≤ 9) : Rep (new g : PackedLine β) { lgGrainsize := g } := by
  have hp : Packs (setLgGrainsize 0#64 g) 0 0 g := Packs.zero.withGrain (by omega)
  have hnull : getData (setLgGrainsize 0#64 g) = 0#64 := BitVec.eq_of_toNat_eq hp.data_eq
  refine ⟨⟨hg, by simp, rfl⟩, rfl, ?_, iff_of_true hnull rfl, fun u hu => ?_⟩
  · show Packs (setLgGrainsize 0#64 g) (getData (setLgGrainsize 0#64 g)).toNat 0 g
    rw [hnull]
    exact hp
  · rw [List.mem_singleton.1 hu]
    exact kept_grain Packs.zero hp

/-! ## Operations -/

/-- The address after an update that keeps it. -/
theorem getData_of_packs {w w' : BitVec 64} {n g : Nat} (h : Packs w' (getData w).toNat n g) :
    getData w' = getData w :=
  BitVec.eq_of_toNat_eq h.data_eq

namespace Rep

/-- A valid entry is stored, and the line keeps its array. -/
theorem store (h : Rep l m) (hm : m.isMaterialized = true) (setFn : Option β → β) (addr : Nat) :
    ∃ l', l.store setFn (getData l.dataPtr) (m.getIdx (byte addr)) = some l' ∧
    getData l'.dataPtr = getData l.dataPtr ∧
      Rep l' (m.store setFn (m.getIdx (byte addr))) := by
  obtain ⟨ds, hd⟩ := Option.isSome_iff_exists.1 hm
  have hload := h.loadEntry hm (getIdx_lt h.wf addr)
  have hwf := (h.wf.store hm setFn (p := addr)).1
  have hlt : m.getIdx (byte addr) < ds.length := by
    rw [h.wf.length ds hd]
    exact getIdx_lt h.wf addr
  have hcount := count_le h.wf
  have harray := h.array
  rw [hd, Option.map_some] at harray
  unfold PackedLine.store
  rw [hload, Option.bind_some]
  cases he : (m.entry (m.getIdx (byte addr))).isSome with
  | true =>
    simp only [if_true, assign, harray, hlt, and_self]
    refine ⟨_, rfl, rfl, hwf, ?_, ?_, ?_, h.kept⟩
    · simp only [Line.store, hd, Option.map_some]
    · simp only [Line.store, he, if_true]
      exact h.packs
    · simpa [Line.store, hd] using h.null
  | false =>
    have hinc : Packs (incNumNonNullEls l.dataPtr) (getData l.dataPtr).toNat
      (m.numNonNullEls + 1) m.lgGrainsize := h.packs.inc (by omega)
    have hdata := getData_of_packs hinc
    simp only [Bool.false_eq_true, if_false, assign, update, harray, hlt, and_self, if_true]
    refine ⟨_, rfl, hdata, hwf, ?_, ?_, ?_, ?_⟩
    · simp only [Line.store, hd, Option.map_some, hdata]
    · simp only [Line.store, he, Bool.false_eq_true, if_false, hdata]
      exact hinc
    · simpa [Line.store, hd, hdata] using h.null
    · exact List.forall_mem_cons.2 ⟨kept_count h.packs hinc, h.kept⟩

/-- A valid entry is made invalid. -/
theorem invalidate (h : Rep l m) {addr : Nat}
    (hs : (m.entry (m.getIdx (byte addr))).isSome = true) :
    ∃ l', l.invalidate (getData l.dataPtr) (m.getIdx (byte addr)) = some l' ∧
    getData l'.dataPtr = getData l.dataPtr ∧
      Rep l' (m.invalidate (m.getIdx (byte addr))) := by
  obtain ⟨ds, hd⟩ : ∃ ds, m.data = some ds := by
    cases hd : m.data with
    | none => rw [Line.entry_of_none hd] at hs; cases hs
    | some ds => exact ⟨ds, rfl⟩
  have hwf := (h.wf.invalidate hs).1
  have hlt : m.getIdx (byte addr) < ds.length := by
    rw [h.wf.length ds hd]
    exact getIdx_lt h.wf addr
  have hpos : 0 < m.numNonNullEls := by
    rw [h.wf.count, List.countP_pos_iff]
    refine ⟨_, List.mem_of_getElem? (i := m.getIdx (byte addr)) ?_, hs⟩
    simp [Line.entry, hd, hlt]
  have harray := h.array
  rw [hd, Option.map_some] at harray
  have hdec : Packs (decNumNonNullEls l.dataPtr) (getData l.dataPtr).toNat
    (m.numNonNullEls - 1) m.lgGrainsize := h.packs.dec hpos
  have hdata := getData_of_packs hdec
  unfold PackedLine.invalidate
  simp only [assign, update, harray, hlt, and_self, if_true, Option.map_some]
  refine ⟨_, rfl, hdata, hwf, ?_, ?_, ?_, ?_⟩
  · simp only [Line.invalidate, hd, Option.map_some, hdata]
  · simp only [Line.invalidate, hdata]
    exact hdec
  · simpa [Line.invalidate, hd, hdata] using h.null
  · exact List.forall_mem_cons.2 ⟨kept_count h.packs hdec, h.kept⟩

theorem materialize (h : Rep l m) (hd : m.data = none) :
    Rep (l.materialize alloc) m.materialize := by
  have hset : Packs (setData l.dataPtr (alloc.addr l.allocated))
    (alloc.addr l.allocated).toNat m.numNonNullEls m.lgGrainsize := h.packs.withData (alloc.lt _)
  have hdata : getData (setData l.dataPtr (alloc.addr l.allocated)) = alloc.addr l.allocated :=
    BitVec.eq_of_toNat_eq hset.data_eq
  unfold PackedLine.materialize allocate update
  rw [h.lgGrainsize]
  refine ⟨h.wf.materialize hd, ?_, ?_, ?_, ?_⟩
  · simp only [Line.materialize, Option.map_some, hdata]
  · simp only [Line.materialize, hdata]
    exact hset
  · simpa [Line.materialize, hdata] using alloc.nonnull l.allocated
  · exact List.forall_mem_cons.2 ⟨kept_data h.packs hset, h.kept⟩

theorem materialized (h : Rep l m) (alloc : Allocator) :
    Rep (l.materialized alloc) (if m.isMaterialized then m else m.materialize) := by
  unfold PackedLine.materialized
  rw [h.isMaterialized]
  split
  · exact h
  · next hm => exact h.materialize (by simpa [Line.isMaterialized] using hm)

theorem reset (h : Rep l m) : ∃ l', l.reset = some l' ∧ Rep l' m.reset := by
  have hwf := h.wf.reset
  unfold PackedLine.reset
  rw [h.isMaterialized]
  cases hd : m.data with
  | none =>
    have hm : m.isMaterialized = false := by simp [Line.isMaterialized, hd]
    have hset : Packs (setLgGrainsize l.dataPtr LG_LINE_SIZE)
      (getData l.dataPtr).toNat m.numNonNullEls LG_LINE_SIZE := h.packs.withGrain (by decide)
    have hdata := getData_of_packs hset
    have hreset : m.reset = { m with lgGrainsize := LG_LINE_SIZE } := by simp [Line.reset, hm]
    rw [hreset] at hwf ⊢
    simp only [hm, Bool.false_eq_true, if_false, Option.map_some, update]
    refine ⟨_, rfl, hwf, ?_, ?_, ?_, ?_⟩
    · simpa only [hd, Option.map_none] using h.array
    · simp only [hdata]
      exact hset
    · simp only [hdata]
      exact h.null
    · exact List.forall_mem_cons.2 ⟨kept_grain h.packs hset, h.kept⟩
  | some ds =>
    have hm : m.isMaterialized = true := by simp [Line.isMaterialized, hd]
    have hreset : m.reset = {} := by simp [Line.reset, hm]
    have hset : Packs (setLgGrainsize 0#64 LG_LINE_SIZE) 0 0 LG_LINE_SIZE :=
      Packs.zero.withGrain (by decide)
    have hdata : getData (setLgGrainsize 0#64 LG_LINE_SIZE) = 0#64 :=
      BitVec.eq_of_toNat_eq hset.data_eq
    have harray := h.array
    rw [hd, Option.map_some] at harray
    rw [hreset] at hwf ⊢
    simp only [hm, if_true, deallocate, harray, Option.map_some, update]
    refine ⟨_, rfl, hwf, rfl, ?_, ?_, ?_⟩
    · simp only [hdata]
      exact hset
    · simp only [hdata]
    · exact List.forall_mem_cons.2 ⟨kept_grain Packs.zero hset, h.kept⟩

end Rep

/-! ## Refinement -/

/-- One entry is put in the next places of the new array. -/
theorem copy_places (entry : Option β) : ∀ (n : Nat) (front rest : List (Option β)),
    (List.range' front.length n).foldlM
      (fun newData j => if j < newData.length then some (newData.set j entry) else none)
      (front ++ (List.replicate n none ++ rest)) = some (front ++ (List.replicate n entry ++ rest))
  | 0, front, rest => rfl
  | n + 1, front, rest => by
    have hlt : front.length < (front ++ (List.replicate (n + 1) none ++ rest)).length := by
      simp only [List.length_append, List.length_replicate]
      omega
    have hset : (front ++ (List.replicate (n + 1) none ++ rest)).set front.length entry =
        (front ++ [entry]) ++ (List.replicate n none ++ rest) := by
      rw [List.set_append_right _ _ (Nat.le_refl _), Nat.sub_self, List.replicate_succ,
        List.cons_append, List.set_cons_zero, List.append_assoc, List.singleton_append]
    have hlen : front.length + 1 = (front ++ [entry]).length := by simp
    rw [List.range'_succ, List.foldlM_cons]
    simp only [hlt, if_true, hset, hlen, Option.bind_eq_bind, Option.bind_some]
    rw [copy_places entry n, List.replicate_succ, List.cons_append, List.append_assoc,
      List.singleton_append]

theorem copyEntry_eq (r : Nat) (entry : Option β) {front : List (Option β)} {i : Nat}
    (hi : r * i = front.length) (rest : List (Option β)) :
    copyEntry r (front ++ (List.replicate r none ++ rest)) i entry =
    some (front ++ (List.replicate r entry ++ rest)) := by
  unfold copyEntry
  cases entry with
  | none => rfl
  | some x =>
    rw [hi]
    exact copy_places (some x) r front rest

theorem copyLoop_eq {data : BitVec 64} {ds : List (Option β)}
    (hload : ∀ i, l.load data i = ds[i]?) (r : Nat) :
    ∀ (back front : List (Option β)), ds = front ++ back →
    l.copyLoop data r back.length front.length
        (front.flatMap (List.replicate r) ++ List.replicate (back.length * r) none) =
      some (ds.flatMap (List.replicate r))
  | [], front, hds => by simp [copyLoop, hds]
  | b :: back, front, hds => by
    have hb : l.load data front.length = some b := by
      rw [hload, hds, List.getElem?_append_right (Nat.le_refl _), Nat.sub_self]
      rfl
    have hlen : r * front.length = (front.flatMap (List.replicate r)).length := by
      rw [Line.length_flatMap_replicate, Nat.mul_comm]
    have hplaces : List.replicate ((b :: back).length * r) (none : Option β) =
        List.replicate r none ++ List.replicate (back.length * r) none := by
      rw [List.length_cons, Nat.add_mul, Nat.one_mul, Nat.add_comm, List.replicate_add]
    have hfront :
        front.flatMap (List.replicate r) ++
        (List.replicate r b ++ List.replicate (back.length * r) none) =
        (front ++ [b]).flatMap (List.replicate r) ++ List.replicate (back.length * r) none := by
      simp
    have ih :=
      copyLoop_eq hload r back (front ++ [b])
        (by rw [hds, List.append_assoc, List.singleton_append])
    rw [List.length_append, List.length_singleton] at ih
    rw [List.length_cons, copyLoop, hb, Option.bind_some, ← List.length_cons (a := b), hplaces,
      copyEntry_eq r b hlen, Option.bind_some, hfront]
    exact ih

namespace Rep

/-- The finer array, and the count that is then in the word. -/
theorem replicateEntries (h : Rep l m) {ds : List (Option β)} (hd : m.data = some ds) {g : Nat}
    (hg : g < m.lgGrainsize) :
    ∃ l₁ ds₁, l.replicateEntries (getData l.dataPtr) g = some (l₁, ds₁) ∧
    (m.refine g).data = some ds₁ ∧
      l₁.array = l.array ∧
      Packs l₁.dataPtr (getData l.dataPtr).toNat (m.refine g).numNonNullEls m.lgGrainsize ∧
      ∀ u ∈ l₁.updates, Kept u.1 u.2.1 u.2.2 := by
  unfold PackedLine.replicateEntries
  rw [h.noNonNullEls, h.lgGrainsize]
  cases he : m.isEmpty with
  | true =>
    refine ⟨l, List.replicate (Line.numData g) none, rfl, ?_, rfl, ?_, h.kept⟩
    · simp [Line.refine, hd, he]
    · simp only [Line.refine, hd, he, if_true]
      exact h.packs
  | false =>
    have hrefine : m.refine g = {
        data := some (ds.flatMap (List.replicate (2 ^ m.lgGrainsize / 2 ^ g)))
        numNonNullEls := m.numNonNullEls * (2 ^ m.lgGrainsize / 2 ^ g)
        lgGrainsize := g } := by simp [Line.refine, hd, he]
    have hlen : Line.numData g = ds.length * (2 ^ m.lgGrainsize / 2 ^ g) := by
      have := (h.wf.refine hg).1.length _ (by rw [hrefine])
      rw [hrefine, Line.length_flatMap_replicate] at this
      exact this.symm
    have hcopy := copyLoop_eq (h.load hd) (2 ^ m.lgGrainsize / 2 ^ g) ds [] rfl
    rw [List.flatMap_nil, List.nil_append, List.length_nil, ← hlen, h.wf.length ds hd] at hcopy
    have hcount := count_le (h.wf.refine hg).1
    rw [hrefine] at hcount ⊢
    have hscale :=
      h.packs.scale (r := 2 ^ m.lgGrainsize / 2 ^ g) (Nat.lt_of_le_of_lt hcount (by decide))
    simp only [Bool.not_false, if_true, hcopy, Option.map_some]
    exact ⟨_, _, rfl, rfl, rfl, hscale, List.forall_mem_cons.2 ⟨kept_count h.packs hscale, h.kept⟩⟩

theorem refine (h : Rep l m) (alloc : Allocator) {g : Nat} (hg : g < m.lgGrainsize) :
    ∃ l', l.refine alloc g = some l' ∧ Rep l' (m.refine g) := by
  have hle := h.wf.le
  obtain ⟨hwf, hgrain, hmat, -⟩ := h.wf.refine hg
  unfold PackedLine.refine
  rw [h.isMaterialized]
  cases hd : m.data with
  | none =>
    have hm : m.isMaterialized = false := by simp [Line.isMaterialized, hd]
    have hset : Packs (setLgGrainsize l.dataPtr g) (getData l.dataPtr).toNat m.numNonNullEls g :=
      h.packs.withGrain (by omega)
    have hdata := getData_of_packs hset
    have hrefine : m.refine g = { m with lgGrainsize := g } := by simp [Line.refine, hd]
    rw [hrefine] at hwf ⊢
    simp only [hm, Bool.not_false, if_true, update]
    refine ⟨_, rfl, hwf, ?_, ?_, ?_, List.forall_mem_cons.2 ⟨kept_grain h.packs hset, h.kept⟩⟩
    · simpa only [hd, Option.map_none] using h.array
    · simp only [hdata]
      exact hset
    · simp only [hdata]
      exact h.null
  | some ds =>
    have hm : m.isMaterialized = true := by simp [Line.isMaterialized, hd]
    obtain ⟨l₁, ds₁, heq, hds₁, harray, hpacks, hkept⟩ := h.replicateEntries hd hg
    rw [h.array, hd, Option.map_some] at harray
    have hset : Packs (setData l₁.dataPtr (alloc.addr l₁.allocated)) (alloc.addr l₁.allocated).toNat
        (m.refine g).numNonNullEls m.lgGrainsize := hpacks.withData (alloc.lt _)
    have hgrain' : Packs _ _ _ g := hset.withGrain (by omega)
    have hdata : getData (setLgGrainsize (setData l₁.dataPtr (alloc.addr l₁.allocated)) g) =
      alloc.addr l₁.allocated := BitVec.eq_of_toNat_eq hgrain'.data_eq
    simp only [hm, Bool.not_true, Bool.false_eq_true, if_false, heq, Option.bind_some, deallocate,
      harray, if_true, Option.map_some, allocate, update]
    refine ⟨_, rfl, hwf, ?_, ?_, ?_, List.forall_mem_cons.2 ⟨kept_grain hset hgrain',
      List.forall_mem_cons.2 ⟨kept_data hpacks hset, hkept⟩⟩⟩
    · simp only [hds₁, Option.map_some, hdata]
    · simp only [hdata, hgrain]
      exact hgrain'
    · simpa [hds₁, hdata] using alloc.nonnull l₁.allocated

theorem refineTo (h : Rep l m) (alloc : Allocator) (g : Nat) :
    ∃ l', l.refineTo alloc g = some l' ∧ Rep l' (m.refineTo g) := by
  unfold PackedLine.refineTo Line.refineTo
  rw [h.lgGrainsize]
  split
  · next hg => exact h.refine alloc hg
  · exact ⟨l, rfl, h⟩

end Rep

end PackedLine

end Cilksan
