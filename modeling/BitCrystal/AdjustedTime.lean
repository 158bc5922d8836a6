import BitCrystal.Data.Medians
import BitCrystal.Data.Outcome
import BitCrystal.NetAddr
import BitCrystal.Primitives
import Mathlib.Data.List.DropRight

namespace BitCrystal

open Data

/-! # CMedianFilter and AddTimeData -/

def signedRange (bits : Nat) (value : Int) : Prop := -2 ^ (bits - 1) ≤ value ∧ value < 2 ^ (bits - 1)

instance (bits : Nat) (value : Int) : Decidable (signedRange bits value) := inferInstanceAs (Decidable (_ ∧ _))

/-- A sum in that type; leaving the range is undefined in the source. -/
def addSigned (bits : Nat) (a b : Int) : Except Failure Int :=
  if signedRange bits (a + b) then .ok (a + b) else .error .overflow

structure CMedianFilter where
  vValues : List Int
  vSorted : List Int
  nSize : UInt32
deriving DecidableEq

namespace CMedianFilter

def new (size : UInt32) (initial_value : Int) : CMedianFilter where
  vValues := [initial_value]
  vSorted := [initial_value]
  nSize := size

def input (filter : CMedianFilter) (value : Int) : CMedianFilter :=
  let vValues := if filter.vValues.length = filter.nSize.toNat then filter.vValues.tail else filter.vValues
  let vValues := vValues ++ [value]
  { filter with vValues, vSorted := vValues.insertionSort (· ≤ ·) }

/-- `int size = vSorted.size()` -/
def intSize (values : List Int) : Int := (values.length : Int).bmod (2 ^ 32)

/-- The template's type has `bits` bits. -/
def median (bits : Nat) (filter : CMedianFilter) : Except Failure Int := do
  let size := intSize filter.vSorted
  require (0 < size) (.undefined "assert(size>0)")
  if size % 2 = 1 then expect filter.vSorted[(size / 2).toNat]? (.undefined "vSorted[size/2]")
  else
    let low ← expect filter.vSorted[(size / 2 - 1).toNat]? (.undefined "vSorted[size/2-1]")
    let high ← expect filter.vSorted[(size / 2).toNat]? (.undefined "vSorted[size/2]")
    let sum ← addSigned bits low high
    return sum.tdiv 2

def size (filter : CMedianFilter) : Int := intSize filter.vValues

end CMedianFilter

/-! ## AddTimeData -/

def abs64 (n : Int) : Except Failure Int := if 0 ≤ n then .ok n else subInt64 0 n

/-- A call of AddTimeData, and the answer of GetTime in it. -/
structure TimeCall where
  ip : CNetAddr
  nTime : Int
  now : Int
deriving DecidableEq

/-- The globals of util.cpp that AddTimeData reads and writes. -/
structure TimeData where
  vTimeOffsets : CMedianFilter := .new 200 0
  setKnown : List CNetAddr := []
  nTimeOffset : Int := 0
  fDone : Bool := false
  strMiscWarning : String := ""
deriving DecidableEq

def clockWarning : String :=
  "Warning: Please check that your computer's date and time are correct! If your clock is wrong BitCrystal will not work properly."

/-- A turn of the loop that looks for an offset within five minutes, other than zero. -/
def closeTurn (fMatch : Bool) (nOffset : Int) : Except Failure Bool := do
  if nOffset ≠ 0 then
    if (← abs64 nOffset) < 5 * 60 then return true
  return fMatch

def closeOffset (vSorted : List Int) : Except Failure Bool := vSorted.foldlM closeTurn false

/-- The rest of AddTimeData once the median is known. -/
def adjustTime (s : TimeData) (nMedian : Int) : Except Failure TimeData := do
  if (← abs64 nMedian) < 70 * 60 then return { s with nTimeOffset := nMedian }
  let s := { s with nTimeOffset := 0 }
  if s.fDone then return s
  if ← closeOffset s.vTimeOffsets.vSorted then return s
  return { s with fDone := true, strMiscWarning := clockWarning }

def addTimeData (s : TimeData) (call : TimeCall) : Except Failure TimeData := do
  let nOffsetSample ← subInt64 call.nTime call.now
  if call.ip ∈ s.setKnown then return s
  let s := { s with setKnown := call.ip :: s.setKnown, vTimeOffsets := s.vTimeOffsets.input nOffsetSample }
  if 5 ≤ s.vTimeOffsets.size ∧ s.vTimeOffsets.size % 2 = 1 then
    let nMedian ← s.vTimeOffsets.median 64
    adjustTime s nMedian
  else return s

/-- `now` is the answer of GetTime. -/
def getAdjustedTime (s : TimeData) (now : Int) : Except Failure Int := addInt64 now s.nTimeOffset

/-- The calls of a run of the program, from the start. -/
def addTimeDataAll (calls : List TimeCall) : Except Failure TimeData := calls.foldlM addTimeData {}

/-! ## What the filter holds -/

namespace CMedianFilter

def after (nSize : UInt32) (initial : Int) (inputs : List Int) : CMedianFilter :=
  inputs.foldl input (.new nSize initial)

/-- The sorted copy holds the values, in order. -/
structure Ordered (filter : CMedianFilter) : Prop where
  sorted : filter.vSorted.Pairwise (· ≤ ·)
  perm : filter.vSorted.Perm filter.vValues

variable {nSize : UInt32} {initial value m : Int} {inputs values : List Int} {filter : CMedianFilter} {bits : Nat}

theorem after_concat :
    after nSize initial (inputs ++ [value]) = (after nSize initial inputs).input value := by
  rw [after, List.foldl_append]
  rfl

theorem input_nSize : (filter.input value).nSize = filter.nSize := rfl

theorem ordered_input : (filter.input value).Ordered where
  sorted := List.pairwise_insertionSort (· ≤ ·) _
  perm := List.perm_insertionSort (· ≤ ·) _

theorem ordered_after : (after nSize initial inputs).Ordered := by
  induction inputs using List.reverseRecOn with
  | nil => exact ⟨List.pairwise_singleton _ _, .refl _⟩
  | append_singleton inputs value _ =>
      rw [after_concat]
      exact ordered_input

theorem nSize_after : (after nSize initial inputs).nSize = nSize := by
  induction inputs using List.reverseRecOn with
  | nil => rfl
  | append_singleton inputs value ih => rw [after_concat, input_nSize, ih]

theorem rtake_concat {n : Nat} (room : 0 < n) : (values ++ [value]).rtake n =
    (if (values.rtake n).length = n then (values.rtake n).tail else values.rtake n) ++ [value] := by
  obtain ⟨k, rfl⟩ : ∃ k, n = k + 1 := ⟨n - 1, by omega⟩
  rw [List.rtake_concat_succ]
  by_cases full : k + 1 ≤ values.length
  · have length : (values.rtake (k + 1)).length = k + 1 := by
      rw [List.rtake, List.length_drop]
      omega
    rw [if_pos length, List.rtake, List.rtake, List.tail_drop]
    congr 2
    omega
  · have whole {j : Nat} (le : values.length ≤ j) : values.rtake j = values := by
      rw [List.rtake, Nat.sub_eq_zero_of_le le, List.drop_zero]
    rw [whole (by omega), whole (by omega), if_neg (by omega)]

theorem vValues_after (room : 0 < nSize.toNat) :
    (after nSize initial inputs).vValues = (initial :: inputs).rtake nSize.toNat := by
  induction inputs using List.reverseRecOn with
  | nil =>
      have whole : [initial].rtake nSize.toNat = [initial] := by
        rw [List.rtake, List.length_singleton, Nat.sub_eq_zero_of_le room, List.drop_zero]
      exact whole.symm
  | append_singleton inputs value ih =>
      rw [after_concat, input, nSize_after, ih, ← List.cons_append, rtake_concat room]

theorem vValues_after_of_le (fits : inputs.length < nSize.toNat) :
    (after nSize initial inputs).vValues = initial :: inputs := by
  rw [vValues_after (by omega), List.rtake, List.length_cons, Nat.sub_eq_zero_of_le (by omega), List.drop_zero]

theorem length_rtake (values : List Int) (n : Nat) : (values.rtake n).length = min n values.length := by
  rw [List.rtake, List.length_drop]
  omega

/-! ## The median -/

/-- The sum of the two middle values of an even number of them is a value of the type. -/
def MiddleFits (bits : Nat) (values : List Int) : Prop :=
  values.length % 2 = 0 → ∀ low high, HasRank values (values.length / 2 - 1) low →
    HasRank values (values.length / 2) high → signedRange bits (low + high)

theorem intSize_eq (small : values.length < 2 ^ 31) : intSize values = values.length :=
  Int.bmod_eq_of_le (by omega) (by omega)

theorem int_pos {n : Nat} (small : n < 2 ^ 32) : 0 < (n : Int).bmod (2 ^ 32) ↔ 0 < n ∧ n < 2 ^ 31 := by
  rcases Nat.lt_or_ge n (2 ^ 31) with low | high
  · rw [Int.bmod_eq_of_le (by omega) (by omega)]
    omega
  · have wrapped : (n : Int).bmod (2 ^ 32) = n - 2 ^ 32 := by
      rw [Int.bmod_def, if_neg (by omega)]
      omega
    omega

theorem addSigned_eq_ok {a b sum : Int} : addSigned bits a b = .ok sum ↔ signedRange bits (a + b) ∧ a + b = sum := by
  unfold addSigned
  split <;> simp_all

theorem median_eq (some : 0 < filter.vSorted.length) (low : filter.vSorted.length < 2 ^ 31) : filter.median bits =
    if filter.vSorted.length % 2 = 1 then expect filter.vSorted[filter.vSorted.length / 2]? (.undefined "vSorted[size/2]")
    else do
      let low ← expect filter.vSorted[filter.vSorted.length / 2 - 1]? (.undefined "vSorted[size/2-1]")
      let high ← expect filter.vSorted[filter.vSorted.length / 2]? (.undefined "vSorted[size/2]")
      let sum ← addSigned bits low high
      return sum.tdiv 2 := by
  have middle : ((filter.vSorted.length : Int) / 2).toNat = filter.vSorted.length / 2 := by omega
  have before : ((filter.vSorted.length : Int) / 2 - 1).toNat = filter.vSorted.length / 2 - 1 := by omega
  have parity : (filter.vSorted.length : Int) % 2 = 1 ↔ filter.vSorted.length % 2 = 1 := by omega
  have size := intSize_eq low
  have defined : 0 < intSize filter.vSorted := by
    rw [size]
    omega
  rw [median, require_of defined, ok_bind, size, middle, before]
  simp only [parity]

theorem median_eq_error (small : filter.vSorted.length < 2 ^ 32)
    (outside : ¬(0 < filter.vSorted.length ∧ filter.vSorted.length < 2 ^ 31)) :
    filter.median bits = .error (.undefined "assert(size>0)") := by
  have undefined : ¬0 < intSize filter.vSorted := fun positive => outside ((int_pos small).mp positive)
  rw [median, require, if_neg undefined, error_bind]

theorem median_eq_ok (ordered : filter.Ordered) (small : filter.vValues.length < 2 ^ 32) :
    filter.median bits = .ok m ↔
      filter.vValues.length < 2 ^ 31 ∧ MiddleFits bits filter.vValues ∧ IsMedian filter.vValues m := by
  have length := ordered.perm.length_eq
  have ranked {rank : Nat} {v : Int} (found : filter.vSorted[rank]? = some v) : HasRank filter.vValues rank v :=
    (HasRank.of_getElem? ordered.sorted found).perm ordered.perm
  have found {rank : Nat} {v : Int} (has : HasRank filter.vValues rank v) : filter.vSorted[rank]? = some v := by
    have inside : rank < filter.vSorted.length := length ▸ has.lt_length
    rw [List.getElem?_eq_getElem inside, has.unique (ranked (List.getElem?_eq_getElem inside))]
  by_cases defined : 0 < filter.vSorted.length ∧ filter.vSorted.length < 2 ^ 31
  · rw [median_eq defined.1 defined.2, length]
    rw [length] at defined
    by_cases parity : filter.vValues.length % 2 = 1
    · have fits : MiddleFits bits filter.vValues := fun even => absurd parity (by omega)
      rw [if_pos parity, expect_eq_ok, isMedian_odd parity]
      exact ⟨fun at_ => ⟨defined.2, fits, ranked at_⟩, fun has => found has.2.2⟩
    · rw [if_neg parity]
      simp only [bind_eq_ok, expect_eq_ok, addSigned_eq_ok, pure_eq_ok]
      constructor
      · rintro ⟨low, lowAt, high, highAt, _, ⟨fits, rfl⟩, rfl⟩
        refine ⟨defined.2, fun _ low' high' hasLow hasHigh => ?_, .even (by omega) (ranked lowAt) (ranked highAt)⟩
        rwa [hasLow.unique (ranked lowAt), hasHigh.unique (ranked highAt)]
      · rintro ⟨-, fits, median⟩
        cases median with
        | odd odd _ => exact absurd odd parity
        | @even low high even hasLow hasHigh =>
            exact ⟨low, found hasLow, high, found hasHigh, low + high, ⟨fits even low high hasLow hasHigh, rfl⟩, rfl⟩
  · rw [median_eq_error (length ▸ small) defined]
    rw [length] at defined
    constructor
    · intro ran
      cases ran
    · exact fun has => absurd ⟨has.2.2.length_pos, has.1⟩ defined

/-- The filter answers the median of the last values it was given exactly when it keeps any, counts them
in an `int`, and the two middle ones of an even number have a sum. -/
theorem median_after : (∃ m, (after nSize initial inputs).median bits = .ok m ∧
      IsMedian ((initial :: inputs).rtake nSize.toNat) m) ↔
    0 < nSize.toNat ∧ min nSize.toNat (inputs.length + 1) < 2 ^ 31 ∧
      MiddleFits bits ((initial :: inputs).rtake nSize.toNat) := by
  have length := length_rtake (initial :: inputs) nSize.toNat
  rw [List.length_cons] at length
  by_cases room : 0 < nSize.toNat
  · have small := nSize.toNat_lt
    have ordered : (after nSize initial inputs).Ordered := ordered_after
    have answers (m : Int) : (after nSize initial inputs).median bits = .ok m ↔ _ :=
      median_eq_ok ordered (by rw [vValues_after room]; omega)
    simp only [answers, vValues_after room, length]
    constructor
    · rintro ⟨m, ⟨counted, fits, -⟩, -⟩
      exact ⟨room, counted, fits⟩
    · rintro ⟨-, counted, fits⟩
      obtain ⟨m, isMedian⟩ := exists_isMedian ((initial :: inputs).rtake nSize.toNat) (by omega)
      exact ⟨m, ⟨counted, fits, isMedian⟩, isMedian⟩
  · constructor
    · rintro ⟨m, -, isMedian⟩
      exact absurd isMedian.length_pos (by omega)
    · exact fun has => absurd has.1 room

end CMedianFilter

/-! ## The samples that count -/

section Samples

variable {known : List CNetAddr} {calls : List TimeCall} {call : TimeCall}

/-- The samples of the calls whose peer is not among the known ones and has not called before. -/
def acceptedFrom (known : List CNetAddr) : List TimeCall → List Int
  | [] => []
  | call :: calls =>
      if call.ip ∈ known then acceptedFrom known calls
      else (call.nTime - call.now) :: acceptedFrom (call.ip :: known) calls

def accepted (calls : List TimeCall) : List Int := acceptedFrom [] calls

theorem acceptedFrom_concat : acceptedFrom known (calls ++ [call]) =
    acceptedFrom known calls ++ if call.ip ∈ known ∨ ∃ before ∈ calls, before.ip = call.ip then []
      else [call.nTime - call.now] := by
  induction calls generalizing known with
  | nil => simp [acceptedFrom]
  | cons first calls ih =>
      rw [List.cons_append, acceptedFrom, acceptedFrom]
      by_cases heard : first.ip ∈ known
      · rw [if_pos heard, if_pos heard, ih]
        congr 2
        simp only [List.mem_cons, exists_eq_or_imp, eq_iff_iff]
        constructor
        · exact Or.imp_right .inr
        · rintro (isKnown | same | before)
          · exact .inl isKnown
          · exact .inl (same ▸ heard)
          · exact .inr before
      · rw [if_neg heard, if_neg heard, ih, List.cons_append]
        congr 3
        simp only [List.mem_cons, exists_eq_or_imp, @eq_comm _ call.ip first.ip, or_assoc, or_left_comm]

end Samples

/-! ## One call -/

section Calls

variable {s s' : TimeData} {call : TimeCall} {n nMedian : Int} {values : List Int}

theorem abs64_eq_ok {result : Int} (range : int64Range n) : abs64 n = .ok result ↔ n ≠ -2 ^ 63 ∧ |n| = result := by
  unfold abs64
  split <;> rename_i sign
  · rw [abs_of_nonneg sign]
    simp only [Except.ok.injEq]
    omega
  · rw [abs_of_neg (by omega), subInt64_eq_ok]
    unfold int64Range at range ⊢
    omega

theorem abs64_lowest : abs64 (-2 ^ 63) = .error .overflow := by decide

theorem abs64_of_ne (range : int64Range n) (ne : n ≠ -2 ^ 63) : abs64 n = .ok |n| := (abs64_eq_ok range).mpr ⟨ne, rfl⟩

theorem closeTurn_isOk (fMatch : Bool) (range : int64Range n) :
    (∃ found, closeTurn fMatch n = .ok found) ↔ n ≠ -2 ^ 63 := by
  constructor
  · rintro ⟨found, ran⟩ rfl
    rw [closeTurn, if_pos (by decide), abs64_lowest] at ran
    contradiction
  · intro ne
    rw [closeTurn, abs64_of_ne range ne]
    by_cases zero : n = 0
    · exact ⟨fMatch, by rw [if_neg (not_not_intro zero)]; rfl⟩
    · rw [if_pos zero, ok_bind]
      split
      · exact ⟨true, rfl⟩
      · exact ⟨fMatch, rfl⟩

theorem closeOffset_isOk (range : ∀ v ∈ values, int64Range v) :
    (∃ fMatch, closeOffset values = .ok fMatch) ↔ -2 ^ 63 ∉ values := by
  unfold closeOffset
  generalize false = fMatch
  induction values generalizing fMatch with
  | nil => exact ⟨fun _ => List.not_mem_nil, fun _ => ⟨fMatch, rfl⟩⟩
  | cons v values ih =>
      have first := closeTurn_isOk fMatch (range v List.mem_cons_self)
      have rest (found : Bool) := ih (fun w member => range w (List.mem_cons_of_mem v member)) found
      rw [List.foldlM_cons, List.mem_cons, not_or, @eq_comm Int (-2 ^ 63) v, ← ne_eq, ← first]
      constructor
      · rintro ⟨result, ran⟩
        obtain ⟨found, turn, later⟩ := bind_eq_ok.mp ran
        exact ⟨⟨found, turn⟩, (rest found).mp ⟨result, later⟩⟩
      · rintro ⟨⟨found, turn⟩, others⟩
        obtain ⟨result, later⟩ := (rest found).mpr others
        exact ⟨result, bind_eq_ok.mpr ⟨found, turn, later⟩⟩

theorem adjustTime_near (range : int64Range nMedian) (ne : nMedian ≠ -2 ^ 63) (near : |nMedian| < 70 * 60) :
    adjustTime s nMedian = .ok { s with nTimeOffset := nMedian } := by
  rw [adjustTime, abs64_of_ne range ne, ok_bind, if_pos near]
  rfl

theorem adjustTime_far (range : int64Range nMedian) (ne : nMedian ≠ -2 ^ 63) (far : ¬|nMedian| < 70 * 60) :
    adjustTime s nMedian =
      if s.fDone = true then .ok { s with nTimeOffset := 0 } else do
        if ← closeOffset s.vTimeOffsets.vSorted then return { s with nTimeOffset := 0 }
        return { s with nTimeOffset := 0, fDone := true, strMiscWarning := clockWarning } := by
  rw [adjustTime, abs64_of_ne range ne, ok_bind, if_neg far]
  rfl

theorem adjustTime_isOk (range : int64Range nMedian) (values : ∀ v ∈ s.vTimeOffsets.vSorted, int64Range v) :
    (∃ s', adjustTime s nMedian = .ok s') ↔
      nMedian ≠ -2 ^ 63 ∧ (|nMedian| < 70 * 60 ∨ s.fDone = true ∨ -2 ^ 63 ∉ s.vTimeOffsets.vSorted) := by
  by_cases lowest : nMedian = -2 ^ 63
  · subst lowest
    have fails : adjustTime s (-2 ^ 63) = .error .overflow := by rw [adjustTime, abs64_lowest, error_bind]
    exact ⟨fun ⟨_, ran⟩ => absurd (fails.symm.trans ran) nofun, fun has => absurd rfl has.1⟩
  · rw [← closeOffset_isOk values]
    by_cases near : |nMedian| < 70 * 60
    · exact ⟨fun _ => ⟨lowest, .inl near⟩, fun _ => ⟨_, adjustTime_near range lowest near⟩⟩
    · rw [adjustTime_far range lowest near]
      by_cases warned : s.fDone = true
      · rw [if_pos warned]
        exact ⟨fun _ => ⟨lowest, .inr (.inl warned)⟩, fun _ => ⟨_, rfl⟩⟩
      · rw [if_neg warned]
        constructor
        · rintro ⟨s', ran⟩
          obtain ⟨fMatch, looked, -⟩ := bind_eq_ok.mp ran
          exact ⟨lowest, .inr (.inr ⟨fMatch, looked⟩)⟩
        · rintro ⟨-, isNear | isWarned | ⟨fMatch, looked⟩⟩
          · exact absurd isNear near
          · exact absurd isWarned warned
          · rw [looked, ok_bind]
            split
            · exact ⟨_, rfl⟩
            · exact ⟨_, rfl⟩

theorem adjustTime_spec (range : int64Range nMedian) (ran : adjustTime s nMedian = .ok s') :
    s'.vTimeOffsets = s.vTimeOffsets ∧ s'.setKnown = s.setKnown ∧
      s'.nTimeOffset = if |nMedian| < 70 * 60 then nMedian else 0 := by
  have lowest : nMedian ≠ -2 ^ 63 := by
    rintro rfl
    rw [adjustTime, abs64_lowest] at ran
    contradiction
  by_cases near : |nMedian| < 70 * 60
  · rw [adjustTime_near range lowest near, Except.ok.injEq] at ran
    subst ran
    exact ⟨rfl, rfl, (if_pos near).symm⟩
  · rw [adjustTime_far range lowest near] at ran
    rw [if_neg near]
    split at ran
    · cases ran
      exact ⟨rfl, rfl, rfl⟩
    · obtain ⟨fMatch, -, left⟩ := bind_eq_ok.mp ran
      split at left <;> cases left <;> exact ⟨rfl, rfl, rfl⟩

def recordSample (s : TimeData) (call : TimeCall) : TimeData :=
  { s with
    setKnown := call.ip :: s.setKnown
    vTimeOffsets := s.vTimeOffsets.input (call.nTime - call.now) }

theorem addTimeData_overflow (outside : ¬int64Range (call.nTime - call.now)) : addTimeData s call = .error .overflow := by
  rw [addTimeData, subInt64, if_neg outside, error_bind]

theorem addTimeData_heard (inside : int64Range (call.nTime - call.now)) (heard : call.ip ∈ s.setKnown) :
    addTimeData s call = .ok s := by
  rw [addTimeData, subInt64, if_pos inside, ok_bind, if_pos heard]
  rfl

theorem addTimeData_new (inside : int64Range (call.nTime - call.now)) (unheard : call.ip ∉ s.setKnown) :
    addTimeData s call =
      let recorded := recordSample s call
      if 5 ≤ recorded.vTimeOffsets.size ∧ recorded.vTimeOffsets.size % 2 = 1 then
        recorded.vTimeOffsets.median 64 >>= adjustTime recorded
      else .ok recorded := by
  rw [addTimeData, subInt64, if_pos inside, ok_bind, if_neg unheard]
  rfl

end Calls

/-! ## All calls -/

/-- The offset is zero or the median at some earlier odd count, with the initial value counted, and
below 70 minutes. -/
structure Adjusted (calls : List TimeCall) (nTimeOffset : Int) : Prop where
  origin : nTimeOffset = 0 ∨ ∃ earlier, earlier <+: accepted calls ∧ 5 ≤ (0 :: earlier).length ∧
    (0 :: earlier).length < 200 ∧ (0 :: earlier).length % 2 = 1 ∧ IsMedian (0 :: earlier) nTimeOffset
  bounded : |nTimeOffset| < 70 * 60

/-- What holds of the globals after the calls so far. -/
structure After (calls : List TimeCall) (s : TimeData) : Prop where
  offsets : s.vTimeOffsets = .after 200 0 (accepted calls)
  known : ∀ ip, ip ∈ s.setKnown ↔ ∃ call ∈ calls, call.ip = ip
  range : ∀ v ∈ accepted calls, int64Range v
  adjusted : Adjusted calls s.nTimeOffset

/-- At an odd count, -2^63 is not the median; and where the median is 70 minutes or more away, it is not
among the values either, unless the warning has been given. -/
def UpdateSafe (fDone : Bool) (values : List Int) : Prop :=
  Minority values (· = -2 ^ 63) ∧
    ((Minority values (· ≤ -(70 * 60)) ∧ Minority values (70 * 60 ≤ ·)) ∨ fDone = true ∨ -2 ^ 63 ∉ values)

/-- The sample is an `int64`, and the update it brings about is safe. -/
def TimeCall.Safe (call : TimeCall) (s : TimeData) : Prop :=
  int64Range (call.nTime - call.now) ∧
    (call.ip ∉ s.setKnown →
      let values := s.vTimeOffsets.vValues ++ [call.nTime - call.now]
      5 ≤ values.length → values.length < 200 → values.length % 2 = 1 → UpdateSafe s.fDone values)

section Runs

variable {calls : List TimeCall} {call : TimeCall} {s s' : TimeData} {values : List Int} {nMedian : Int} {fDone : Bool}

theorem updateSafe_iff (parity : values.length % 2 = 1) (range : ∀ v ∈ values, int64Range v)
    (isMedian : IsMedian values nMedian) :
    UpdateSafe fDone values ↔ nMedian ≠ -2 ^ 63 ∧ (|nMedian| < 70 * 60 ∨ fDone = true ∨ -2 ^ 63 ∉ values) := by
  have lowest : Minority values (· = -2 ^ 63) ↔ Minority values (· ≤ -2 ^ 63) := by
    have same : values.countP (· = -2 ^ 63) = values.countP (· ≤ -2 ^ 63) :=
      List.countP_congr fun v member => by
        have low := (range v member).1
        simp only [decide_eq_true_eq]
        omega
    rw [Minority, Minority, same]
  have low := (range nMedian ((isMedian_odd parity).mp isMedian).mem).1
  rw [UpdateSafe, lowest, ← lt_median_iff parity isMedian, ← lt_median_iff parity isMedian,
    ← median_lt_iff parity isMedian, abs_lt, lt_iff_le_and_ne, and_iff_right low, ne_comm]

/-- The values of the filter once another sample is recorded: the update looks at all of them. -/
theorem recordSample_updates (call : TimeCall) (after : After calls s) :
    let filter := (recordSample s call).vTimeOffsets
    let values := s.vTimeOffsets.vValues ++ [call.nTime - call.now]
    (5 ≤ filter.size ∧ filter.size % 2 = 1 ↔ 5 ≤ values.length ∧ values.length < 200 ∧ values.length % 2 = 1) ∧
      (values.length < 200 → filter.vValues = values ∧ values = 0 :: (accepted calls ++ [call.nTime - call.now])) := by
  intro filter values
  have offsets : filter = .after 200 0 (accepted calls ++ [call.nTime - call.now]) := by
    rw [CMedianFilter.after_concat, ← after.offsets]
    rfl
  have before : s.vTimeOffsets.vValues.length = min 200 ((accepted calls).length + 1) := by
    rw [after.offsets, CMedianFilter.vValues_after (by decide), CMedianFilter.length_rtake]
    rfl
  have now : filter.vValues.length = min 200 ((accepted calls).length + 2) := by
    rw [offsets, CMedianFilter.vValues_after (by decide), CMedianFilter.length_rtake, List.length_cons,
      List.length_append]
    rfl
  have size : filter.size = filter.vValues.length := CMedianFilter.intSize_eq (by omega)
  have length : values.length = s.vTimeOffsets.vValues.length + 1 := by simp [values]
  constructor
  · rw [size]
    omega
  · intro room
    have few : (accepted calls).length + 2 < 200 := by omega
    have all : s.vTimeOffsets.vValues = 0 :: accepted calls := by
      rw [after.offsets]
      exact CMedianFilter.vValues_after_of_le (by change _ < 200; omega)
    have whole : values = 0 :: (accepted calls ++ [call.nTime - call.now]) := by
      simp only [values, all, List.cons_append]
    rw [whole, offsets]
    exact ⟨CMedianFilter.vValues_after_of_le (by change _ < 200; simp; omega), rfl⟩

theorem accepted_heard (heard : ∃ before ∈ calls, before.ip = call.ip) : accepted (calls ++ [call]) = accepted calls := by
  rw [accepted, acceptedFrom_concat, if_pos (.inr heard), List.append_nil, accepted]

theorem accepted_new (unheard : ¬∃ before ∈ calls, before.ip = call.ip) :
    accepted (calls ++ [call]) = accepted calls ++ [call.nTime - call.now] := by
  rw [accepted, acceptedFrom_concat, if_neg (not_or.mpr ⟨List.not_mem_nil, unheard⟩), accepted]

theorem Adjusted.concat {offset : Int} (adjusted : Adjusted calls offset) : Adjusted (calls ++ [call]) offset := by
  have more : accepted calls <+: accepted (calls ++ [call]) := by
    by_cases heard : ∃ before ∈ calls, before.ip = call.ip
    · rw [accepted_heard heard]
    · rw [accepted_new heard]
      exact List.prefix_append _ _
  refine ⟨adjusted.origin.imp_right ?_, adjusted.bounded⟩
  rintro ⟨earlier, before, rest⟩
  exact ⟨earlier, before.trans more, rest⟩

theorem median_of_recorded {filter : CMedianFilter} (ordered : filter.Ordered) (all : filter.vValues = values)
    (room : values.length < 200) (parity : values.length % 2 = 1) :
    filter.median 64 = .ok nMedian ↔ IsMedian values nMedian := by
  have fits : CMedianFilter.MiddleFits 64 values := fun even => absurd parity (by omega)
  rw [CMedianFilter.median_eq_ok ordered (by rw [all]; omega), all]
  exact ⟨fun has => has.2.2, fun isMedian => ⟨by omega, fits, isMedian⟩⟩

theorem After.heard (after : After calls s) (heard : call.ip ∈ s.setKnown) : After (calls ++ [call]) s where
  offsets := by rw [accepted_heard ((after.known call.ip).mp heard), after.offsets]
  known ip := by
    rw [after.known]
    constructor
    · rintro ⟨before, member, rfl⟩
      exact ⟨before, List.mem_append_left _ member, rfl⟩
    · rintro ⟨before, member, rfl⟩
      rcases List.mem_append.mp member with earlier | last
      · exact ⟨before, earlier, rfl⟩
      · obtain rfl := List.mem_singleton.mp last
        exact (after.known before.ip).mp heard
  range := by
    rw [accepted_heard ((after.known call.ip).mp heard)]
    exact after.range
  adjusted := after.adjusted.concat

/-- A new peer's call keeps the invariant, whatever it does to the offset within the bounds. -/
theorem After.new (after : After calls s) (inside : int64Range (call.nTime - call.now)) (unheard : call.ip ∉ s.setKnown)
    (offsets : s'.vTimeOffsets = (recordSample s call).vTimeOffsets) (known : s'.setKnown = call.ip :: s.setKnown)
    (adjusted : Adjusted (calls ++ [call]) s'.nTimeOffset) : After (calls ++ [call]) s' where
  offsets := by
    rw [accepted_new (mt (after.known call.ip).mpr unheard), CMedianFilter.after_concat, ← after.offsets, offsets]
    rfl
  known ip := by
    rw [known, List.mem_cons, after.known]
    constructor
    · rintro (rfl | ⟨before, member, rfl⟩)
      · exact ⟨call, List.mem_append_right _ (List.mem_singleton_self call), rfl⟩
      · exact ⟨before, List.mem_append_left _ member, rfl⟩
    · rintro ⟨before, member, rfl⟩
      rcases List.mem_append.mp member with earlier | last
      · exact .inr ⟨before, earlier, rfl⟩
      · exact .inl (by rw [List.mem_singleton.mp last])
  range := by
    rw [accepted_new (mt (after.known call.ip).mpr unheard)]
    intro v member
    rcases List.mem_append.mp member with earlier | last
    · exact after.range v earlier
    · rwa [List.mem_singleton.mp last]
  adjusted := adjusted

/-- One call: when it goes through, and what holds after it. -/
theorem addTimeData_spec (after : After calls s) :
    ((∃ s', addTimeData s call = .ok s') ↔ call.Safe s) ∧
      ∀ s', addTimeData s call = .ok s' → After (calls ++ [call]) s' := by
  by_cases inside : int64Range (call.nTime - call.now)
  case neg =>
    rw [addTimeData_overflow inside]
    exact ⟨⟨fun ran => absurd ran.choose_spec nofun, fun safe => absurd safe.1 inside⟩, fun _ ran => nomatch ran⟩
  by_cases heard : call.ip ∈ s.setKnown
  case pos =>
    rw [addTimeData_heard inside heard]
    refine ⟨⟨fun _ => ⟨inside, fun unheard => absurd heard unheard⟩, fun _ => ⟨s, rfl⟩⟩, ?_⟩
    rintro _ ⟨⟩
    exact after.heard heard
  obtain ⟨updates, whole⟩ := recordSample_updates call after
  rw [addTimeData_new inside heard]
  by_cases odd : 5 ≤ (recordSample s call).vTimeOffsets.size ∧ (recordSample s call).vTimeOffsets.size % 2 = 1
  case neg =>
    simp only [if_neg odd]
    refine ⟨⟨fun _ => ⟨inside, fun _ some room parity => absurd (updates.mpr ⟨some, room, parity⟩) odd⟩, fun _ => ⟨_, rfl⟩⟩, ?_⟩
    rintro _ ⟨⟩
    exact after.new inside heard rfl rfl after.adjusted.concat
  simp only [if_pos odd]
  obtain ⟨some, room, parity⟩ := updates.mp odd
  obtain ⟨holds, values⟩ := whole room
  have ordered : (recordSample s call).vTimeOffsets.Ordered := CMedianFilter.ordered_input
  have range : ∀ v ∈ s.vTimeOffsets.vValues ++ [call.nTime - call.now], int64Range v := by
    rw [values]
    intro v member
    rcases List.mem_cons.mp member with rfl | sample
    · exact ⟨by omega, by omega⟩
    · rcases List.mem_append.mp sample with earlier | last
      · exact after.range v earlier
      · exact List.mem_singleton.mp last ▸ inside
  obtain ⟨nMedian, isMedian⟩ := exists_isMedian (s.vTimeOffsets.vValues ++ [call.nTime - call.now]) (by omega)
  have medianRange := range nMedian ((isMedian_odd parity).mp isMedian).mem
  have sortedRange : ∀ v ∈ (recordSample s call).vTimeOffsets.vSorted, int64Range v := fun v member =>
    range v (holds ▸ ordered.perm.mem_iff.mp member)
  have lowest : -2 ^ 63 ∈ (recordSample s call).vTimeOffsets.vSorted ↔
      -2 ^ 63 ∈ s.vTimeOffsets.vValues ++ [call.nTime - call.now] := by rw [ordered.perm.mem_iff, holds]
  rw [(median_of_recorded ordered holds room parity).mpr isMedian, ok_bind, adjustTime_isOk medianRange sortedRange,
    lowest]
  constructor
  · rw [← updateSafe_iff parity range isMedian]
    exact ⟨fun safe => ⟨inside, fun _ _ _ _ => safe⟩, fun safe => safe.2 heard some room parity⟩
  · intro s' ran
    obtain ⟨offsets, known, adjusted⟩ := adjustTime_spec medianRange ran
    refine after.new inside heard offsets known ?_
    rw [adjusted]
    split
    · rename_i near
      refine ⟨.inr ⟨accepted (calls ++ [call]), List.prefix_rfl, ?_⟩, near⟩
      rw [accepted_new (mt (after.known call.ip).mpr heard), ← values]
      exact ⟨some, room, parity, isMedian⟩
    · exact ⟨.inl rfl, by decide⟩

theorem addTimeDataAll_concat : addTimeDataAll (calls ++ [call]) = addTimeDataAll calls >>= (addTimeData · call) := by
  rw [addTimeDataAll, List.foldlM_append]
  simp only [List.foldlM_cons, List.foldlM_nil, bind_pure]
  rfl

theorem addTimeDataAll_after (ran : addTimeDataAll calls = .ok s) : After calls s := by
  induction calls using List.reverseRecOn generalizing s with
  | nil =>
      cases ran
      exact ⟨rfl, by simp, nofun, .inl rfl, by decide⟩
  | append_singleton calls call ih =>
      rw [addTimeDataAll_concat] at ran
      obtain ⟨before, first, last⟩ := bind_eq_ok.mp ran
      exact (addTimeData_spec (ih first)).2 s last

/-- The offset is as it should be after every call of a run exactly when every call was safe. -/
theorem addTimeDataAll_iff :
    (∀ earlier, earlier <+: calls → ∃ s, addTimeDataAll earlier = .ok s ∧ Adjusted earlier s.nTimeOffset) ↔
      ∀ earlier call, earlier ++ [call] <+: calls → ∀ s, addTimeDataAll earlier = .ok s → call.Safe s := by
  constructor
  · intro always earlier call within s ran
    obtain ⟨s', next, -⟩ := always _ within
    rw [addTimeDataAll_concat, ran, ok_bind] at next
    exact (addTimeData_spec (addTimeDataAll_after ran)).1.mp ⟨s', next⟩
  · intro safe earlier
    induction earlier using List.reverseRecOn with
    | nil => exact fun _ => ⟨{}, rfl, .inl rfl, by decide⟩
    | append_singleton earlier call ih =>
        intro within
        obtain ⟨s, ran, -⟩ := ih ((List.prefix_append earlier [call]).trans within)
        obtain ⟨s', next⟩ := (addTimeData_spec (addTimeDataAll_after ran)).1.mpr (safe earlier call within s ran)
        have now : addTimeDataAll (earlier ++ [call]) = .ok s' := by rw [addTimeDataAll_concat, ran, ok_bind, next]
        exact ⟨s', now, (addTimeDataAll_after now).adjusted⟩

theorem getAdjustedTime_near {now time : Int} (ran : addTimeDataAll calls = .ok s)
    (adjusted : getAdjustedTime s now = .ok time) : |time - now| < 70 * 60 := by
  obtain ⟨-, rfl⟩ := addInt64_eq_ok.mp adjusted
  rw [add_sub_cancel_left]
  exact (addTimeDataAll_after ran).adjusted.bounded

end Runs

/-- The offset of a run and the answer of a filter, and exactly when they are what they should be. -/
theorem networkTime_iff (calls : List TimeCall) (bits : Nat) (nSize : UInt32) (initial : Int) (inputs : List Int) :
    ((∀ earlier, earlier <+: calls → ∃ s, addTimeDataAll earlier = .ok s ∧ Adjusted earlier s.nTimeOffset) ↔
        ∀ earlier call, earlier ++ [call] <+: calls → ∀ s, addTimeDataAll earlier = .ok s → call.Safe s) ∧
      ((∃ m, (CMedianFilter.after nSize initial inputs).median bits = .ok m ∧
          IsMedian ((initial :: inputs).rtake nSize.toNat) m) ↔
        0 < nSize.toNat ∧ min nSize.toNat (inputs.length + 1) < 2 ^ 31 ∧
          CMedianFilter.MiddleFits bits ((initial :: inputs).rtake nSize.toNat)) :=
  ⟨addTimeDataAll_iff, CMedianFilter.median_after⟩

/-- Four peers whose clocks say the earliest time there is, counted from ours. -/
def earliestClocks : List TimeCall := [1, 2, 3, 4].map fun ip => { ip, nTime := -2 ^ 63 + 1400000000, now := 1400000000 }

/-- Their median has no opposite; and peers that claim 2^31 - 1 blocks each leave `int` behind. -/
theorem networkTime_overflows :
    ((earliestClocks.map TimeCall.ip).Nodup ∧
      ¬∃ s, addTimeDataAll earliestClocks = .ok s ∧ Adjusted earliestClocks s.nTimeOffset) ∧
    ¬∃ m, (CMedianFilter.after 8 0 (List.replicate 3 2147483647)).median 32 = .ok m ∧
      IsMedian (0 :: List.replicate 3 2147483647) m := by
  have clocks : addTimeDataAll earliestClocks = .error .overflow := by decide +kernel
  have blocks : (CMedianFilter.after 8 0 (List.replicate 3 2147483647)).median 32 = .error .overflow := by decide +kernel
  refine ⟨⟨by decide, ?_⟩, ?_⟩
  · rintro ⟨s, ran, -⟩
    exact nomatch clocks.symm.trans ran
  · rintro ⟨m, ran, -⟩
    exact nomatch blocks.symm.trans ran

example : (CMedianFilter.after 5 15 [20, 30, 3, 7, 18]).median 32 = .ok 18 := by decide

end BitCrystal
