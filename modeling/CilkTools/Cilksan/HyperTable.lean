/-
The hash table of reducer views (`hypertable.h`): a small array that is
scanned, or ordered linear probing in a circular buffer with tombstones.

The functions take the hash function as a parameter, `hash` being the one of
the source. Capacities are below 2^27 (for a removal, at most that), where no
arithmetic overflows but the unsigned comparison of `continueProbe`.
-/
import CilkTools.OrderedProbing
import Mathlib.Data.List.Basic

namespace Cilksan

abbrev Key := BitVec 64

def KEY_EMPTY : Key := 0#64
def KEY_DELETED : Key := ~~~0#64

def isEmpty (key : Key) : Bool := key = KEY_EMPTY
def isTombstone (key : Key) : Bool := key = KEY_DELETED
def isValid (key : Key) : Bool := !isEmpty key && !isTombstone key

structure Bucket (V : Type) where
  key : Key := KEY_EMPTY
  hash : Nat := 0
  value : V
  deriving DecidableEq, Repr

def Bucket.makeTombstone {V : Type} (b : Bucket V) : Bucket V := { b with key := KEY_DELETED }

instance {V : Type} [Inhabited V] : Inhabited (Bucket V) := ⟨{ value := default }⟩

/-- `hyper_table`; `buckets` is the array of `capacity` buckets. -/
structure HyperTable (V : Type) where
  capacity : Nat
  occupancy : Nat
  insRmCount : Int
  buckets : Nat → Bucket V

namespace HyperTable

variable {V : Type}

def MIN_CAPACITY : Nat := 4
def MIN_HT_CAPACITY : Nat := 8
def LOAD_FACTOR_CONSTANT : Nat := 16
def MIN_REBUILD_OP_COUNT : Nat := 8

def salt : BitVec 64 := 0x96b9af4f6a40de92#64

def hash (keyIn : Key) : Nat :=
  let x := keyIn ^^^ salt
  let lowMask : BitVec 64 := 1#64 <<< 32 - 1#64
  let v := (x &&& lowMask) * (x >>> 32)
  ((v &&& lowMask) ^^^ (v >>> 32)).toNat

def getTableEntry (hash : Key → Nat) (capacity : Nat) (key : Key) : Nat :=
  hash key &&& (capacity - 1)

def incIndex (i capacity : Nat) : Nat := if i + 1 = capacity then 0 else i + 1

/-- The differences are of unsigned 32-bit integers. -/
def continueProbe (tgt hash idx : Nat) : Bool :=
  (2 ^ 32 + idx - tgt) % 2 ^ 32 ≤ (2 ^ 32 + idx - hash) % 2 ^ 32

def isOverloaded (occupancy capacity : Nat) : Bool :=
  (LOAD_FACTOR_CONSTANT - 1) * capacity / LOAD_FACTOR_CONSTANT < occupancy

def isUnderloaded (occupancy capacity : Nat) : Bool :=
  MIN_CAPACITY < capacity &&
    occupancy ≤ (LOAD_FACTOR_CONSTANT / 2 - 1) * capacity / LOAD_FACTOR_CONSTANT

def timeToRebuild (insRmCount : Int) (capacity : Nat) : Bool :=
  (MIN_REBUILD_OP_COUNT : Int) < insRmCount &&
    ((capacity / (4 * LOAD_FACTOR_CONSTANT) : Nat) : Int) < insRmCount

/-! ## Finding -/

/-- Scans backwards. -/
def findLinear (bs : Nat → Bucket V) (key : Key) : Nat → Option Nat
  | 0 => none
  | i + 1 => if (bs i).key = key then some i else findLinear bs key i

/-- The probe of `find_hash`, which takes at most `capacity` steps. -/
def findFrom (bs : Nat → Bucket V) (capacity : Nat) (key : Key) (tgt : Nat) : Nat → Nat → Option Nat
  | 0, _ => none
  | n + 1, i =>
    if key = (bs i).key then some i
    else if isEmpty (bs i).key then none
    else if isTombstone (bs i).key || continueProbe tgt (bs i).hash i then
      let i := incIndex i capacity
      if i = tgt then none else findFrom bs capacity key tgt n i
    else none

/-- The index of the bucket associated with the key. -/
def find (hash : Key → Nat) (t : HyperTable V) (key : Key) : Option Nat :=
  if t.capacity < MIN_HT_CAPACITY then findLinear t.buckets key t.occupancy
  else
    let tgt := getTableEntry hash t.capacity key
    findFrom t.buckets t.capacity key tgt t.capacity tgt

/-! ## Inserting into the hash table -/

/-- Where a probe for the place of a bucket ends. -/
inductive Spot
  | overwrite (i : Nat)
  | place (i : Nat)
  | shift (i : Nat)
  deriving DecidableEq, Repr

/-- The end of a run of consecutive tombstones. -/
def tombEnd (bs : Nat → Bucket V) (capacity probeEnd : Nat) : Nat → Nat → Nat
  | 0, nextI => nextI
  | n + 1, nextI =>
    if nextI ≠ probeEnd ∧ isTombstone (bs nextI).key then
      tombEnd bs capacity probeEnd n (incIndex nextI capacity)
    else nextI

/-- The probe of `insert`, which takes at most `capacity` steps. -/
def probe (bs : Nat → Bucket V) (capacity : Nat) (key : Key) (tgt : Nat) : Nat → Nat → Spot
  | 0, i => .shift i
  | n + 1, i =>
    if key = (bs i).key then .overwrite i
    else if isEmpty (bs i).key then .place i
    else if isTombstone (bs i).key then
      let nextI := tombEnd bs capacity tgt capacity (incIndex i capacity)
      if isEmpty (bs nextI).key then .place i
      else if nextI = tgt ∨ continueProbe tgt (bs nextI).hash nextI = false then .place i
      else probe bs capacity key tgt n nextI
    else if continueProbe tgt (bs i).hash i then
      let i := incIndex i capacity
      if i = tgt then .shift i else probe bs capacity key tgt n i
    else .shift i

/-- The bucket is put here and the ones it displaces are moved on, up to a
bucket that is free; `false` stands for none left. -/
def shiftIn (capacity insertTgt : Nat) : Nat → (Nat → Bucket V) → Nat → Bucket V →
    Bool × (Nat → Bucket V)
  | 0, bs, _, _ => (false, bs)
  | n + 1, bs, i, b =>
    if !isValid (bs i).key then (true, Function.update bs i b)
    else
      let bs' := Function.update bs i b
      let next := incIndex i capacity
      if next = insertTgt then (false, bs') else shiftIn capacity insertTgt n bs' next (bs i)

/-- One more bucket is occupied. -/
def grown (t : HyperTable V) (bs : Nat → Bucket V) : HyperTable V :=
  { t with buckets := bs, occupancy := t.occupancy + 1, insRmCount := t.insRmCount + 1 }

/-- `insert`, from the target hash on. -/
def insertHash (hash : Key → Nat) (t : HyperTable V) (b : Bucket V) : Bool × HyperTable V :=
  let tgt := getTableEntry hash t.capacity b.key
  let b := { b with hash := tgt }
  if isEmpty (t.buckets tgt).key then (true, t.grown (Function.update t.buckets tgt b))
  else
    match probe t.buckets t.capacity b.key tgt t.capacity tgt with
    | .overwrite i =>
      (true, { t with
        buckets := Function.update t.buckets i { t.buckets i with value := b.value } })
    | .place i => (true, t.grown (Function.update t.buckets i b))
    | .shift i =>
      match shiftIn t.capacity i t.capacity t.buckets i b with
      | (true, bs) => (true, t.grown bs)
      | (false, bs) => (false, { t with buckets := bs })

/-! ## Rebuilding -/

section

variable [Inhabited V]

/-- The body of the loop in `bucket_array_create`: the buckets and the
distance from the last tombstone. -/
def buryStep (s : (Nat → Bucket V) × Nat) (i : Nat) : (Nat → Bucket V) × Nat :=
  if s.2 = 2 * LOAD_FACTOR_CONSTANT then
    (Function.update s.1 i (s.1 i).makeTombstone, s.2 - 2 * LOAD_FACTOR_CONSTANT)
  else (s.1, s.2 + 1)

/-- Tombstones are put at regular intervals. -/
def bucketArrayCreate (arraySize : Nat) : Nat → Bucket V :=
  if arraySize < MIN_HT_CAPACITY then fun _ => default
  else ((List.range arraySize).foldl buryStep (fun _ => default, 0)).1

def empty : HyperTable V where
  capacity := MIN_CAPACITY
  occupancy := 0
  insRmCount := 0
  buckets := bucketArrayCreate MIN_CAPACITY

/-- `rebuild`, with the insertion it makes. -/
def rebuildWith (insert : HyperTable V → Bucket V → Option (Bool × HyperTable V)) (t : HyperTable V)
    (newCapacity : Nat) : Option (HyperTable V) :=
  (List.range t.capacity).foldlM (fun new i =>
      if isValid (t.buckets i).key then (insert new (t.buckets i)).map (·.2) else some new)
    { capacity := newCapacity, occupancy := 0, insRmCount := -t.occupancy,
      buckets := bucketArrayCreate newCapacity }

/-- A full small table becomes a hash table, and a hash table is rebuilt if it
is too full or has seen enough operations. -/
def makeRoom (rebuild : HyperTable V → Nat → Option (HyperTable V)) (t : HyperTable V) :
    Option (HyperTable V) := do
  let t ← if t.capacity < MIN_HT_CAPACITY then rebuild t (t.capacity * 2) else some t
  if isOverloaded t.occupancy t.capacity then rebuild t (t.capacity * 2)
  else if timeToRebuild t.insRmCount t.capacity then rebuild t t.capacity
  else some t

/-- The key's bucket is overwritten, or the bucket is appended. -/
def insertLinear (t : HyperTable V) (b : Bucket V) : HyperTable V :=
  match (List.range t.occupancy).find? fun i => (t.buckets i).key = b.key with
  | some i => { t with buckets := Function.update t.buckets i b }
  | none =>
    { t with buckets := Function.update t.buckets t.occupancy b, occupancy := t.occupancy + 1 }

def insertWith (hash : Key → Nat) (rebuild : HyperTable V → Nat → Option (HyperTable V))
    (t : HyperTable V) (b : Bucket V) : Option (Bool × HyperTable V) :=
  if t.capacity < MIN_HT_CAPACITY ∧ t.occupancy < t.capacity then some (true, t.insertLinear b)
  else (makeRoom rebuild t).map fun t => t.insertHash hash b

/-- `insert`, with no more than `depth` rebuilds inside each other. -/
def insertDepth (hash : Key → Nat) : (depth : Nat) → HyperTable V → Bucket V →
    Option (Bool × HyperTable V)
  | 0 => fun _ _ => none
  | depth + 1 => insertWith hash (rebuildWith (insertDepth hash depth))

def rebuild (hash : Key → Nat) : HyperTable V → Nat → Option (HyperTable V) :=
  rebuildWith (insertDepth hash 1)

/-- The insertions of a rebuild make no other. -/
def insert (hash : Key → Nat) : HyperTable V → Bucket V → Option (Bool × HyperTable V) :=
  insertWith hash (rebuild hash)

/-! ## Removing -/

/-- The last entry takes the place of the one removed. -/
def removeLinear (t : HyperTable V) (key : Key) : Bool × HyperTable V :=
  match (List.range t.occupancy).find? fun i => (t.buckets i).key = key with
  | some i =>
    let last := t.occupancy - 1
    let bs := if i = last then t.buckets else Function.update t.buckets i (t.buckets last)
    (true, { t with
      buckets := Function.update bs last { bs last with key := KEY_EMPTY }
      occupancy := last })
  | none => (false, t)

def remove (hash : Key → Nat) (t : HyperTable V) (key : Key) : Option (Bool × HyperTable V) :=
  if t.capacity < MIN_HT_CAPACITY then some (t.removeLinear key)
  else
    match t.find hash key with
    | none => some (false, t)
    | some i =>
      let t := { t with
        buckets := Function.update t.buckets i (t.buckets i).makeTombstone
        occupancy := t.occupancy - 1
        insRmCount := t.insRmCount + 1 }
      if isUnderloaded t.occupancy t.capacity then (rebuild hash t (t.capacity / 2)).map (true, ·)
      else if timeToRebuild t.insRmCount t.capacity then (rebuild hash t t.capacity).map (true, ·)
      else some (true, t)

/-! ## Runs -/

end

inductive TableOp (V : Type)
  | insert (key : Key) (value : V)
  | remove (key : Key)
  deriving DecidableEq, Repr

def TableOp.key : TableOp V → Key
  | insert key _ | remove key => key

def step [Inhabited V] (hash : Key → Nat) (t : HyperTable V) : TableOp V → Option (HyperTable V)
  | .insert key value => (t.insert hash { key, value }).map (·.2)
  | .remove key => (t.remove hash key).map (·.2)

def run [Inhabited V] (hash : Key → Nat) (t : HyperTable V) (ops : List (TableOp V)) :
    Option (HyperTable V) :=
  ops.foldlM (step hash) t

/-- An operation on the map the table stands for. -/
def TableOp.apply (m : Key → Option V) : TableOp V → Key → Option V
  | .insert key value => Function.update m key (some value)
  | .remove key => Function.update m key none

def contents (ops : List (TableOp V)) : Key → Option V := ops.foldl TableOp.apply fun _ => none

end HyperTable

end Cilksan
