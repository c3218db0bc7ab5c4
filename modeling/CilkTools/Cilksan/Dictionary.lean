/-
The two-level tables of the shadow memory (`SimpleDictionary`) and the
iterators over them. A query iterator passes over missing pages and empty
lines; an update iterator does not, and makes pages where it needs them.

The page and the line that an iterator caches are those of its current
address, and are looked up. Loops are given as many steps as there are bytes
left; the lemmas show that to be enough.
-/
import CilkTools.Cilksan.Line

namespace Cilksan

/-- A table of pages, each an array of lines. -/
abbrev Pages (β : Type u) := Nat → Option (Nat → Line β)

namespace Pages

variable {β : Type u}

def getLine (d : Pages β) (addr : Nat) : Option (Line β) :=
  (d (page addr)).map fun pg => pg (line addr)

/-- A line changes, in a page that is made if it is missing. -/
def setLine (d : Pages β) (addr : Nat) (l : Line β) : Pages β :=
  Function.update d (page addr)
    (some (Function.update ((d (page addr)).getD fun _ => {}) (line addr) l))

/-- The valid entry at an address (`Entry_t::get`). -/
def get (d : Pages β) (addr : Nat) : Option β := (d.getLine addr).bind fun l => l.shadow addr

/-- The line at an address has a valid entry. -/
def used (d : Pages β) (addr : Nat) : Bool := (d.getLine addr).any fun l => !l.isEmpty

end Pages

section

variable {β : Type u} {κ : Type v} [DecidableEq κ] (key : β → κ)

/-! ## Query iterators -/

namespace QueryIterator

/-- The next page that is there. -/
def nextPage (d : Pages β) : Nat → Chunk → Chunk
  | 0, accessed => accessed
  | n + 1, accessed =>
    if (d (page accessed.addr)).isSome then accessed
    else
      let accessed := accessed.next (LG_PAGE_SIZE + LG_LINE_SIZE)
      if accessed.isEmpty then accessed else nextPage d n accessed

/-- The next line that is not empty. -/
def nextLine (d : Pages β) : Nat → Chunk → Chunk
  | 0, accessed => accessed
  | n + 1, accessed =>
    if d.used accessed.addr then accessed
    else
      let accessed := accessed.next LG_LINE_SIZE
      if accessed.isEmpty then accessed
      else
        let accessed := if isPageStart accessed.addr then nextPage d n accessed else accessed
        if accessed.isEmpty then accessed else nextLine d n accessed

def mk (d : Pages β) (accessed : Chunk) : Chunk :=
  if accessed.isEmpty then accessed
  else
    let accessed := nextPage d accessed.size accessed
    if accessed.isEmpty then accessed else nextLine d accessed.size accessed

def get (d : Pages β) (accessed : Chunk) : Option β :=
  if accessed.isEmpty then none else d.get accessed.addr

/-- The loop of `next`: up to a valid entry that is not the same as the
previous one. -/
def nextLoop (d : Pages β) (prevData : Option β) : Nat → Chunk → Chunk
  | 0, accessed => accessed
  | n + 1, accessed =>
    let accessed := accessed.next
      (if d.used accessed.addr then ((d.getLine accessed.addr).map (·.lgGrainsize)).getD 0
        else LG_LINE_SIZE)
    if accessed.isEmpty then accessed
    else
      let accessed := if isPageStart accessed.addr then nextPage d n accessed else accessed
      if accessed.isEmpty then accessed
      else
        let accessed := if isLineStart accessed.addr then nextLine d n accessed else accessed
        if accessed.isEmpty then accessed
        else if Line.goesOn key prevData (d.get accessed.addr) then nextLoop d prevData n accessed
        else accessed

def next (d : Pages β) (accessed : Chunk) : Chunk :=
  nextLoop key d (d.get accessed.addr) accessed.size accessed

end QueryIterator

/-! ## Update iterators -/

/-- `entry` is the address of the iterator's entry. -/
structure UpdateIterator where
  accessed : Chunk
  entry : Nat
  deriving DecidableEq, Repr

namespace UpdateIterator

def mk' (accessed : Chunk) : UpdateIterator := ⟨accessed, accessed.addr⟩

def isEnd (it : UpdateIterator) : Bool := it.accessed.isEmpty

def get (d : Pages β) (it : UpdateIterator) : Option β :=
  if it.isEnd then none else d.get it.accessed.addr

/-- The grain of the line at an address. -/
def lgGrainsize (d : Pages β) (addr : Nat) : Nat :=
  ((d.getLine addr).map (·.lgGrainsize)).getD (LG_PAGE_SIZE + LG_LINE_SIZE)

/-- Both entries are valid and the same. -/
def sameEntry (x y : Option β) : Bool := y.any fun y => x.any fun x => decide (key x = key y)

/-- The loop of `next`: up to an entry that is invalid or not the same as the
previous one. It stops early at a line without a page. -/
def nextLoop (d : Pages β) (previous : Option β) : Nat → UpdateIterator → UpdateIterator
  | 0, it => it
  | n + 1, it =>
    let accessed := it.accessed.next (lgGrainsize d it.accessed.addr)
    if accessed.isEmpty then { it with accessed }
    else if isLineStart accessed.addr && (d (page accessed.addr)).isNone then { it with accessed }
    else
      let it := { it with accessed, entry := accessed.addr }
      if sameEntry key previous (d.get it.entry) then nextLoop d previous n it else it

def next (d : Pages β) (it : UpdateIterator) : UpdateIterator :=
  nextLoop key d (d.get it.entry) it.accessed.size it

variable (setFn : Option β → β)

/-- The loop of `insert`: line by line, up to a valid entry that is not the
same as the previous one. -/
def insertLoop (previous : Option β) : Nat → Pages β → UpdateIterator → Pages β × UpdateIterator
  | 0, d, it => (d, it)
  | n + 1, d, it =>
    let addr := it.accessed.addr
    let l := (d.getLine addr).getD {}
    let (l, accessed) := l.insert key setFn it.accessed (l.getIdx (byte addr))
    let d := d.setLine addr l
    if accessed.isEmpty then (d, { it with accessed })
    else
      let it := { it with accessed, entry := accessed.addr }
      if Line.goesOn key previous (d.get it.entry) then insertLoop previous n d it else (d, it)

def insert (d : Pages β) (it : UpdateIterator) : Pages β × UpdateIterator :=
  insertLoop key setFn (d.get it.entry) it.accessed.size d it

/-- `clear`, over pages and lines that are there. -/
def clearLoop : Nat → Pages β → Chunk → Pages β
  | 0, d, _ => d
  | n + 1, d, accessed =>
    let accessed := QueryIterator.nextPage d accessed.size accessed
    if accessed.isEmpty then d
    else
      let accessed := QueryIterator.nextLine d accessed.size accessed
      if accessed.isEmpty then d
      else
        match d.getLine accessed.addr with
        | none => d
        | some l =>
          let addr := accessed.addr
          let (l, accessed) := l.clear accessed
          let d := d.setLine addr l
          if accessed.isEmpty then d else clearLoop n d accessed

def clear (d : Pages β) (accessed : Chunk) : Pages β :=
  if accessed.isEmpty then d else clearLoop accessed.size d accessed

end UpdateIterator

end

/-! ## Entries of bytes -/

namespace Pages

variable {β : Type u}

/-- Every line is well formed. -/
def WF (d : Pages β) : Prop := ∀ addr l, d.getLine addr = some l → l.WF

variable {d : Pages β}

theorem getLine_congr {a b : Nat} (h : SameLine a b) : d.getLine a = d.getLine b := by
  obtain ⟨hp, hl⟩ := sameLine_iff.1 h
  unfold getLine
  rw [hp, hl]

theorem getLine_setLine (a b : Nat) (l : Line β) :
    (d.setLine a l).getLine b = if page b = page a then
      if line b = line a then some l else some ((d.getLine b).getD {}) else d.getLine b := by
  unfold setLine getLine
  by_cases hp : page b = page a
  · rw [if_pos hp, hp, Function.update_self]
    by_cases hl : line b = line a
    · rw [if_pos hl, hl, Option.map_some, Function.update_self]
    · rw [if_neg hl, Option.map_some, Function.update_of_ne hl]
      cases d (page a) <;> rfl
  · rw [if_neg hp, Function.update_of_ne hp]

theorem getLine_setLine_self {a b : Nat} (h : SameLine b a) (l : Line β) :
    (d.setLine a l).getLine b = some l := by
  obtain ⟨hp, hl⟩ := sameLine_iff.1 h
  rw [getLine_setLine, if_pos hp, if_pos hl]

theorem WF.setLine (hw : d.WF) {a : Nat} {l : Line β} (hl : l.WF) : (d.setLine a l).WF := by
  intro b l' hl'
  rw [getLine_setLine] at hl'
  split at hl'
  · split at hl'
    · cases hl'
      exact hl
    · cases h : d.getLine b with
      | none =>
        rw [h] at hl'
        cases hl'
        exact .empty
      | some l₀ =>
        rw [h] at hl'
        cases hl'
        exact hw b _ h
  · exact hw b l' hl'

theorem get_setLine_self {a b : Nat} (h : SameLine b a) (l : Line β) :
    (d.setLine a l).get b = l.shadow b := by
  rw [get, getLine_setLine_self h]
  rfl

theorem get_setLine_of_ne {a b : Nat} (h : ¬ SameLine b a) (l : Line β) :
    (d.setLine a l).get b = d.get b := by
  unfold get
  rw [getLine_setLine]
  split
  · next hpe =>
    rw [if_neg fun hl => h (sameLine_iff.2 ⟨hpe, hl⟩)]
    cases d.getLine b <;> rfl
  · rfl

theorem page_setLine (a i : Nat) (l : Line β) (h : (d i).isSome = true) :
    ((d.setLine a l) i).isSome = true := by
  unfold setLine
  by_cases hi : i = page a
  · rw [hi, Function.update_self]
    rfl
  · rwa [Function.update_of_ne hi]

theorem getLine_isSome (b : Nat) : (d.getLine b).isSome = (d (page b)).isSome := by
  unfold getLine
  rw [Option.isSome_map]

theorem get_of_line {b : Nat} {l : Line β} (h : d.getLine b = some l) : d.get b = l.shadow b := by
  rw [get, h]
  rfl

/-- A line's entries, whether or not its page is there. -/
theorem shadow_getD (b : Nat) : ((d.getLine b).getD {}).shadow b = d.get b := by
  unfold get
  cases d.getLine b <;> rfl

theorem WF.getD (hw : d.WF) (b : Nat) : ((d.getLine b).getD {}).WF := by
  cases h : d.getLine b with
  | none => exact .empty
  | some l => exact hw b l h

/-- The cells of a query: a missing page, an empty line, or an entry. -/
def queryWidth (d : Pages β) (b : Nat) : Nat :=
  match d.getLine b with
  | none => 2 ^ (LG_PAGE_SIZE + LG_LINE_SIZE)
  | some l => if l.isEmpty then 2 ^ LG_LINE_SIZE else 2 ^ l.lgGrainsize

/-- The cells of an update: the entries. -/
def updateWidth (d : Pages β) (b : Nat) : Nat := 2 ^ UpdateIterator.lgGrainsize d b

theorem sameLine_of_grain {g a b : Nat} (hg : g ≤ 9) (h : a / 2 ^ g = b / 2 ^ g) : SameLine a b :=
  div_eq_of_dvd (grain_dvd hg) h

theorem getLine_of_page {a b : Nat} (hn : d.getLine b = none) (h : a / 2 ^ 30 = b / 2 ^ 30) :
    d.getLine a = none := by
  have hp : page a = page b := h
  rw [← Option.isNone_iff_eq_none, ← Option.not_isSome, getLine_isSome, hp, ← getLine_isSome, hn]
  rfl

theorem WF.queryCells_same (hw : d.WF) {b c : Nat} (h : c / d.queryWidth b = b / d.queryWidth b) :
    d.queryWidth c = d.queryWidth b ∧ d.get c = d.get b ∧ d.used c = d.used b := by
  unfold queryWidth at h ⊢
  cases hl : d.getLine b with
  | none =>
    rw [hl] at h
    have hc := getLine_of_page hl h
    simp [get, used, hl, hc]
  | some l =>
    simp only [hl] at h
    have hle := (hw b l hl).le
    cases he : l.isEmpty with
    | true =>
      rw [if_pos he] at h
      have hs : SameLine c b := h
      simp [get, used, getLine_congr hs, hl, he, Line.shadow_of_isEmpty he]
    | false =>
      simp only [he, Bool.false_eq_true, if_false] at h
      have hs : SameLine c b := sameLine_of_grain hle h
      refine ⟨by rw [getLine_congr hs, hl], ?_, by rw [used, used, getLine_congr hs]⟩
      rw [get, get, getLine_congr hs, hl]
      exact (hw b l hl).shadow_grain hs h

def queryCells (d : Pages β) (hw : d.WF) : Cells where
  width := d.queryWidth
  pos b := by
    unfold queryWidth
    cases d.getLine b with
    | none => exact Nat.two_pow_pos _
    | some l =>
      simp only
      split <;> exact Nat.two_pow_pos _
  same h := (hw.queryCells_same h).1

theorem WF.updateCells_same (hw : d.WF) {b c : Nat}
    (h : c / d.updateWidth b = b / d.updateWidth b) :
    d.updateWidth c = d.updateWidth b ∧ d.get c = d.get b := by
  unfold updateWidth UpdateIterator.lgGrainsize at h ⊢
  cases hl : d.getLine b with
  | none =>
    rw [hl] at h
    have hc := getLine_of_page hl h
    simp [get, hl, hc]
  | some l =>
    simp only [hl, Option.map_some, Option.getD_some] at h
    have hs : SameLine c b := sameLine_of_grain (hw b l hl).le h
    refine ⟨by rw [getLine_congr hs, hl], ?_⟩
    rw [get, get, getLine_congr hs, hl]
    exact (hw b l hl).shadow_grain hs h

def updateCells (d : Pages β) (hw : d.WF) : Cells where
  width := d.updateWidth
  pos _ := Nat.two_pow_pos _
  same h := (hw.updateCells_same h).1

end Pages

end Cilksan
