/-
The deduplication of race reports (`report_race` in `print_addr.cpp`, with
`RaceInfo_t` of `race_info.h`): of every class of equivalent races one is
kept, and the others are counted, modulo 2^32.

What is printed of a race, and with it the call stacks, is left out.
-/
import CilkTools.Representatives
import CilkTools.BitFields
import CilkTools.Cilksan.AllocMap
import Mathlib.Data.List.Induction

namespace Cilksan

open BitFields Representatives

/-! ## Races -/

def TypedID.TYPE_SHIFT : Nat := 48

/-- `typed_id_t(type, id)`. -/
def typedID (type : MAType) (id : Int) : BitVec 64 :=
  ((BitVec.ofNat 64 type.val) <<< TypedID.TYPE_SHIFT) ||| BitVec.ofInt 64 id

/-- `AccessLoc_t::operator<`. -/
def AllocLoc.lt (loc that : AllocLoc) : Bool :=
  loc.accLoc < that.accLoc || (loc.accLoc == that.accLoc && loc.type.val < that.type.val)

def flipRaceType : RaceType → RaceType
  | .rwRace => .wrRace
  | .wwRace => .wwRace
  | .wrRace => .rwRace

structure RaceInfo where
  firstAcc : BitVec 64
  secondAcc : BitVec 64
  allocId : BitVec 64
  addr : BitVec 64
  type : RaceType
  deriving DecidableEq, Repr

def RaceInfo.isEquivalentRace (race other : RaceInfo) : Bool :=
  ((race.firstAcc = other.firstAcc && race.secondAcc = other.secondAcc && race.type = other.type) ||
    (race.firstAcc = other.secondAcc && race.secondAcc = other.firstAcc &&
      race.type = flipRaceType other.type)) &&
  race.allocId = other.allocId

/-! ## Reports -/

/-- A call of `report_race`; the form without an allocation takes the default. -/
structure RaceReport where
  firstInst : AllocLoc
  secondInst : AllocLoc
  allocInst : AllocLoc := {}
  addr : BitVec 64
  raceType : RaceType
  deriving DecidableEq, Repr

namespace RaceReport

/-- The key under which the race is put in the map. -/
def key (c : RaceReport) : BitVec 64 :=
  BitVec.ofInt 64 (if c.firstInst.lt c.secondInst then c.firstInst.accLoc else c.secondInst.accLoc)

def race (c : RaceReport) : RaceInfo where
  firstAcc := typedID c.firstInst.type c.firstInst.accLoc
  secondAcc := typedID c.secondInst.type c.secondInst.accLoc
  allocId := BitVec.ofInt 64 c.allocInst.accLoc
  addr := c.addr
  type := c.raceType

end RaceReport

/-- The map of the races found, and the count of the others. -/
structure RacesFound where
  racesFound : List (BitVec 64 × RaceInfo) := []
  duplicatedRaces : BitVec 32 := 0#32
  deriving DecidableEq, Repr

namespace RacesFound

def reportRace (r : RacesFound) (c : RaceReport) : RacesFound :=
  if known RaceInfo.isEquivalentRace r.racesFound c.key c.race then
    { r with duplicatedRaces := r.duplicatedRaces + 1#32 }
  else { r with racesFound := (c.key, c.race) :: r.racesFound }

def reportAll (calls : List RaceReport) : RacesFound := calls.foldl reportRace {}

end RacesFound

/-! ## Equivalent races -/

@[simp] theorem flipRaceType_flip (t : RaceType) :
    flipRaceType (flipRaceType t) = t := by cases t <;> rfl

namespace RaceInfo

theorem isEquivalentRace_iff {r s : RaceInfo} : r.isEquivalentRace s = true ↔
    ((r.firstAcc = s.firstAcc ∧ r.secondAcc = s.secondAcc ∧ r.type = s.type) ∨
      (r.firstAcc = s.secondAcc ∧ r.secondAcc = s.firstAcc ∧ r.type = flipRaceType s.type)) ∧
    r.allocId = s.allocId := by
  simp only [isEquivalentRace, Bool.and_eq_true, Bool.or_eq_true, decide_eq_true_eq, and_assoc]

theorem isEquivalentRace_refl (r : RaceInfo) :
    r.isEquivalentRace r = true := by simp [isEquivalentRace_iff]

theorem isEquivalentRace_symm {r s : RaceInfo} (h : r.isEquivalentRace s = true) :
    s.isEquivalentRace r = true := by
  rw [isEquivalentRace_iff] at *
  obtain ⟨h | h, halloc⟩ := h
  · exact ⟨.inl ⟨h.1.symm, h.2.1.symm, h.2.2.symm⟩, halloc.symm⟩
  · exact ⟨.inr ⟨h.2.1.symm, h.1.symm, by rw [h.2.2, flipRaceType_flip]⟩, halloc.symm⟩

theorem isEquivalentRace_trans {r s t : RaceInfo} (h : r.isEquivalentRace s = true)
    (h' : s.isEquivalentRace t = true) : r.isEquivalentRace t = true := by
  rw [isEquivalentRace_iff] at *
  obtain ⟨h | h, halloc⟩ := h <;> obtain ⟨h' | h', halloc'⟩ := h'
  all_goals refine ⟨?_, halloc.trans halloc'⟩
  · exact .inl ⟨h.1.trans h'.1, h.2.1.trans h'.2.1, h.2.2.trans h'.2.2⟩
  · exact .inr ⟨h.1.trans h'.1, h.2.1.trans h'.2.1, h.2.2.trans h'.2.2⟩
  · exact .inr ⟨h.1.trans h'.2.1, h.2.1.trans h'.1, h.2.2.trans (congrArg flipRaceType h'.2.2)⟩
  · exact .inl ⟨h.1.trans h'.2.1, h.2.1.trans h'.1, by rw [h.2.2, h'.2.2, flipRaceType_flip]⟩

theorem isEquivalentRace_equivalence :
    Equivalence fun r s : RaceInfo => r.isEquivalentRace s = true :=
  ⟨isEquivalentRace_refl, isEquivalentRace_symm, isEquivalentRace_trans⟩

end RaceInfo

/-! ## Keys -/

/-- The ids that fit below the type, and the one that stands for none. -/
def KnownID (id : Int) : Prop := id = UNKNOWN_CSI_ID ∨ (0 ≤ id ∧ id < 2 ^ 48)

theorem toNat_typedID {id : Int} (h : 0 ≤ id ∧ id < 2 ^ 48) (type : MAType) :
    (typedID type id).toNat = type.val * 2 ^ 48 + id.toNat := by
  have hid : (BitVec.ofInt 64 id).toNat = id.toNat := by
    rw [BitVec.toNat_ofInt]
    omega
  have hval : type.val < 256 := by cases type <;> decide
  have hbits : (BitVec.ofNat 64 type.val).toNat = type.val := by
    rw [BitVec.toNat_ofNat]
    omega
  rw [typedID, BitVec.or_comm, TypedID.TYPE_SHIFT,
    toNat_or_shiftLeft (by omega) (by omega), hid, hbits]

theorem typedID_unknown (type : MAType) :
    typedID type UNKNOWN_CSI_ID = -1#64 := by cases type <;> decide

/-- The id is read off the typed one, its type only where the id is known. -/
theorem typedID_inj {id id' : Int} {type type' : MAType} (h : KnownID id) (h' : KnownID id')
    (heq : typedID type id = typedID type' id') : id = id' := by
  have hones : (-1#64).toNat = 2 ^ 64 - 1 := by decide
  have hbound : ∀ t : MAType, t.val < 256 := fun t => by cases t <;> decide
  have hval := hbound type
  have hval' := hbound type'
  rcases h with rfl | h <;> rcases h' with rfl | h'
  · rfl
  · rw [typedID_unknown] at heq
    have := toNat_typedID h' type'
    rw [← heq, hones] at this
    omega
  · rw [typedID_unknown] at heq
    have := toNat_typedID h type
    rw [heq, hones] at this
    omega
  · have hnat := toNat_typedID h type
    rw [heq, toNat_typedID h' type'] at hnat
    omega

namespace RaceReport

structure KnownIDs (c : RaceReport) : Prop where
  first : KnownID c.firstInst.accLoc
  second : KnownID c.secondInst.accLoc

/-- Whichever access comes first in the order, its id is the least. -/
theorem key_eq_min (c : RaceReport) :
    c.key = BitVec.ofInt 64 (min c.firstInst.accLoc c.secondInst.accLoc) := by
  have hlt : c.firstInst.lt c.secondInst = true ↔ c.firstInst.accLoc < c.secondInst.accLoc ∨
      (c.firstInst.accLoc = c.secondInst.accLoc ∧
        c.firstInst.type.val < c.secondInst.type.val) := by
    simp [AllocLoc.lt]
  rw [key]
  congr 1
  split
  · next h =>
    rw [hlt] at h
    omega
  · next h =>
    rw [hlt] at h
    omega

theorem key_eq_of_equivalent {c d : RaceReport} (hc : c.KnownIDs) (hd : d.KnownIDs)
    (h : c.race.isEquivalentRace d.race = true) : c.key = d.key := by
  rw [key_eq_min, key_eq_min]
  rcases (RaceInfo.isEquivalentRace_iff.1 h).1 with ⟨hfirst, hsecond, -⟩ | ⟨hfirst, hsecond, -⟩
  · rw [typedID_inj hc.first hd.first hfirst, typedID_inj hc.second hd.second hsecond]
  · rw [typedID_inj hc.first hd.second hfirst, typedID_inj hc.second hd.first hsecond, min_comm]

end RaceReport

/-! ## Runs -/

namespace RacesFound

variable {calls : List RaceReport}

theorem reportAll_concat (calls : List RaceReport) (c : RaceReport) :
    reportAll (calls ++ [c]) = (reportAll calls).reportRace c := by
  rw [reportAll, List.foldl_append]
  rfl

theorem racesFound_reportRace (r : RacesFound) (c : RaceReport) :
    (r.reportRace c).racesFound = add RaceInfo.isEquivalentRace r.racesFound c.key c.race := by
  unfold reportRace add
  split <;> rfl

theorem oneOfEach_reportAll (calls : List RaceReport) (hids : ∀ c ∈ calls, c.KnownIDs) :
    OneOfEach RaceInfo.isEquivalentRace RaceReport.key RaceReport.race calls
    (reportAll calls).racesFound := by
  induction calls using List.reverseRecOn with
  | nil => exact .nil
  | append_singleton calls c ih =>
    have ih := ih fun d hd => hids d (by simp [hd])
    rw [reportAll_concat, racesFound_reportRace]
    exact ih.add RaceInfo.isEquivalentRace_refl fun d hd h =>
      RaceReport.key_eq_of_equivalent (hids c (by simp)) (hids d (by simp [hd])) h

/-- Each call adds to the map or to the count of duplicates. -/
theorem count_reportAll (calls : List RaceReport) :
    (reportAll calls).racesFound.length ≤ calls.length ∧
    (reportAll calls).duplicatedRaces =
    BitVec.ofNat 32 (calls.length - (reportAll calls).racesFound.length) := by
  induction calls using List.reverseRecOn with
  | nil => exact ⟨Nat.le_refl _, rfl⟩
  | append_singleton calls c ih =>
    obtain ⟨hle, hdup⟩ := ih
    rw [reportAll_concat, reportRace, List.length_append, List.length_singleton]
    split
    · refine ⟨by simp only; omega, ?_⟩
      simp only
      rw [hdup, show calls.length + 1 - (reportAll calls).racesFound.length =
        calls.length - (reportAll calls).racesFound.length + 1 by omega, BitVec.ofNat_add]
    · refine ⟨by simp only [List.length_cons]; omega, ?_⟩
      simp only [List.length_cons]
      rw [hdup, Nat.add_sub_add_right]

/-- **One report of each race.** Equivalence of races is an equivalence, under
which keys agree; of each class reported, one race is in the map, and the
number of the others is counted modulo 2^32. -/
theorem reportAll_spec (hids : ∀ c ∈ calls, c.KnownIDs) :
    (Equivalence fun r s : RaceInfo => r.isEquivalentRace s = true) ∧
    (∀ c ∈ calls, ∀ d ∈ calls, c.race.isEquivalentRace d.race = true → c.key = d.key) ∧
    (∀ c ∈ calls, ((reportAll calls).racesFound.filter fun e =>
      c.race.isEquivalentRace e.2).length = 1) ∧
    (∀ e ∈ (reportAll calls).racesFound, ∃ c ∈ calls, e = (c.key, c.race)) ∧
    ((reportAll calls).racesFound.Pairwise fun e e' => e.2.isEquivalentRace e'.2 = false) ∧
    (reportAll calls).racesFound.length ≤ calls.length ∧
    (reportAll calls).duplicatedRaces.toNat =
    (calls.length - (reportAll calls).racesFound.length) % 2 ^ 32 := by
  have hone := oneOfEach_reportAll calls hids
  obtain ⟨hle, hdup⟩ := count_reportAll calls
  refine ⟨RaceInfo.isEquivalentRace_equivalence,
    fun c hc d hd h => RaceReport.key_eq_of_equivalent (hids c hc) (hids d hd) h, fun c hc => ?_,
    hone.origin, hone.apart, hle, by rw [hdup, BitVec.toNat_ofNat]⟩
  exact hone.length_filter (fun _ _ => RaceInfo.isEquivalentRace_symm)
    (fun _ _ _ => RaceInfo.isEquivalentRace_trans) hc

/-- A read and a write of the same location, by instructions of one id. -/
def readThenWrite : RaceReport where
  firstInst := ⟨5, .rw⟩
  secondInst := ⟨5, .free⟩
  addr := 0x1000#64
  raceType := .rwRace

/-- The same race, found the other way round. -/
def writeThenRead : RaceReport :=
  { readThenWrite with firstInst := ⟨5, .free⟩, secondInst := ⟨5, .rw⟩, raceType := .wrRace }

theorem reportAll_spec_flipped :
    ((reportAll [readThenWrite, writeThenRead]).racesFound.filter fun e =>
        writeThenRead.race.isEquivalentRace e.2).length = 1 ∧
      (reportAll [readThenWrite, writeThenRead]).duplicatedRaces.toNat = 1 := by
  have hids : ∀ c ∈ [readThenWrite, writeThenRead], c.KnownIDs := fun c hc => by
    rcases List.mem_cons.1 hc with rfl | hc
    · exact ⟨.inr (by decide), .inr (by decide)⟩
    · obtain rfl := List.mem_singleton.1 hc
      exact ⟨.inr (by decide), .inr (by decide)⟩
  have h := reportAll_spec hids
  exact ⟨h.2.2.1 writeThenRead (by simp), h.2.2.2.2.2.2.trans (by decide)⟩

theorem reportAll_replicate (n : Nat) (c : RaceReport) :
    reportAll (List.replicate (n + 1) c) = ⟨[(c.key, c.race)], BitVec.ofNat 32 n⟩ := by
  induction n with
  | zero => rfl
  | succ n ih =>
    have hknown : known RaceInfo.isEquivalentRace [(c.key, c.race)] c.key c.race = true := by
      simp [known, RaceInfo.isEquivalentRace_refl]
    rw [List.replicate_succ', reportAll_concat, ih, reportRace, if_pos hknown, BitVec.ofNat_add]

/-- The count of duplicates comes round to 0. -/
theorem not_sizes_add_up :
    (reportAll (List.replicate (2 ^ 32 + 1) readThenWrite)).racesFound.length +
    (reportAll (List.replicate (2 ^ 32 + 1) readThenWrite)).duplicatedRaces.toNat ≠
      (List.replicate (2 ^ 32 + 1) readThenWrite).length := by
  rw [reportAll_replicate, List.length_replicate]
  decide

end RacesFound

end Cilksan
