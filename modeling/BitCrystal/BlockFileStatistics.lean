import BitCrystal.BlockFiles
import BitCrystal.Data.RunningExtrema

namespace BitCrystal

open Data

/-! # The statistics of a block file -/

namespace CBlockFileInfo

abbrev Calls := List (UInt32 × UInt64)

/-- The information of a fresh block file after calls of AddBlock. -/
def addBlocks (calls : Calls) : CBlockFileInfo := calls.foldl (fun info call => info.addBlock call.1 call.2) null

def heights (calls : Calls) : List Nat := calls.map fun call => call.1.toNat

def times (calls : Calls) : List Nat := calls.map fun call => call.2.toNat

/-- What the members of CBlockFileInfo stand for. -/
structure Bounds (info : CBlockFileInfo) (calls : Calls) : Prop where
  nBlocks : info.nBlocks.toNat = calls.length
  nHeightFirst : calls ≠ [] → IsLeast {h | h ∈ heights calls} info.nHeightFirst.toNat
  nHeightLast : calls ≠ [] → IsGreatest {h | h ∈ heights calls} info.nHeightLast.toNat
  nTimeFirst : calls ≠ [] → IsLeast {t | t ∈ times calls} info.nTimeFirst.toNat
  nTimeLast : calls ≠ [] → IsGreatest {t | t ∈ times calls} info.nTimeLast.toNat

/-! ## What AddBlock keeps -/

theorem addBlocks_concat (calls : Calls) (call : UInt32 × UInt64) :
    addBlocks (calls ++ [call]) = (addBlocks calls).addBlock call.1 call.2 := by
  rw [addBlocks, List.foldl_append]
  rfl

theorem nBlocks_addBlocks (calls : Calls) : (addBlocks calls).nBlocks.toNat = calls.length % 2 ^ 32 := by
  induction calls using List.reverseRecOn with
  | nil => rfl
  | append_singleton calls call ih =>
      have counted : (addBlocks (calls ++ [call])).nBlocks = (addBlocks calls).nBlocks + 1 := by
        rw [addBlocks_concat]
        rfl
      rw [counted, UInt32.toNat_add, ih, List.length_append]
      simp

/-- The members other than the last height, and the height that the last height is. -/
structure Tracks (info : CBlockFileInfo) (calls : Calls) : Prop where
  nHeightFirst : calls ≠ [] → IsLeast {h | h ∈ heights calls} info.nHeightFirst.toNat
  nHeightLast : LastRaised 0 (heights calls) info.nHeightLast.toNat
  nTimeFirst : calls ≠ [] → IsLeast {t | t ∈ times calls} info.nTimeFirst.toNat
  nTimeLast : calls ≠ [] → IsGreatest {t | t ∈ times calls} info.nTimeLast.toNat

theorem Tracks.null : Tracks null [] where
  nHeightFirst none := absurd rfl none
  nHeightLast := .level fun _ => not_raised_of_le (Nat.zero_le _)
  nTimeFirst none := absurd rfl none
  nTimeLast none := absurd rfl none

theorem least_concat {values : List Nat} {first next smaller : Nat} (least : values ≠ [] → IsLeast {v | v ∈ values} first)
    (chosen : smaller = if values = [] ∨ next < first then next else first) :
    IsLeast {v | v ∈ values ++ [next]} smaller := by
  subst chosen
  by_cases none : values = []
  · rw [if_pos (.inl none), none]
    simp
  · have grown : IsLeast {v | v ∈ values ++ [next]} (min next first) := isLeast_concat (least none)
    split
    case isTrue below =>
      rwa [min_eq_left (le_of_lt (below.resolve_left none))] at grown
    case isFalse above =>
      rwa [min_eq_right (not_lt.mp fun below => above (.inr below))] at grown

theorem Tracks.addBlock {info : CBlockFileInfo} {calls : Calls} (tracks : info.Tracks calls)
    (counted : info.nBlocks = 0 ↔ calls = []) (started : calls = [] → info.nTimeLast = 0) (call : UInt32 × UInt64) :
    (info.addBlock call.1 call.2).Tracks (calls ++ [call]) := by
  have heightsConcat : heights (calls ++ [call]) = heights calls ++ [call.1.toNat] := List.map_append
  have timesConcat : times (calls ++ [call]) = times calls ++ [call.2.toNat] := List.map_append
  have noHeights : heights calls = [] ↔ calls = [] := List.map_eq_nil_iff
  have noTimes : times calls = [] ↔ calls = [] := List.map_eq_nil_iff
  have first : IsLeast {h | h ∈ heights calls ++ [call.1.toNat]} (info.addBlock call.1 call.2).nHeightFirst.toNat := by
    refine least_concat (fun some' => tracks.nHeightFirst (mt noHeights.mpr some')) ?_
    simp only [noHeights, ← counted, ← UInt32.lt_iff_toNat_lt]
    exact apply_ite UInt32.toNat _ _ _
  refine ⟨fun _ => heightsConcat ▸ first, ?_, fun _ => ?_, fun _ => ?_⟩
  · -- the new height is compared with the smallest one, itself among the others
    have compared : (info.addBlock call.1 call.2).nHeightLast =
        if (info.addBlock call.1 call.2).nHeightFirst < call.1 then call.1 else info.nHeightLast := rfl
    rw [heightsConcat, compared]
    split
    case isTrue above =>
      rw [UInt32.lt_iff_toNat_lt] at above
      have member := first.1
      rw [setOf_mem_concat] at member
      exact .concat_raised ⟨_, member.resolve_left (Nat.ne_of_lt above), above⟩
    case isFalse level =>
      rw [UInt32.lt_iff_toNat_lt, not_lt] at level
      exact tracks.nHeightLast.concat_level fun low member =>
        level.trans (first.2 (List.mem_append_left _ member))
  · rw [timesConcat]
    refine least_concat (fun some' => tracks.nTimeFirst (mt noTimes.mpr some')) ?_
    simp only [noTimes, ← counted, ← UInt64.lt_iff_toNat_lt]
    exact apply_ite UInt64.toNat _ _ _
  · have compared : (info.addBlock call.1 call.2).nTimeLast.toNat = max call.2.toNat info.nTimeLast.toNat := by
      have chosen : (info.addBlock call.1 call.2).nTimeLast = if info.nTimeLast < call.2 then call.2 else info.nTimeLast :=
        rfl
      simp only [chosen, apply_ite UInt64.toNat, UInt64.lt_iff_toNat_lt]
      split <;> omega
    rw [timesConcat, compared]
    by_cases none : calls = []
    · rw [started none, noTimes.mpr none]
      simp
    · exact isGreatest_concat (tracks.nTimeLast none)

theorem tracks_addBlocks {calls : Calls} (few : calls.length < 2 ^ 32) : (addBlocks calls).Tracks calls := by
  induction calls using List.reverseRecOn with
  | nil => exact .null
  | append_singleton calls call ih =>
      have fewer : calls.length + 1 < 2 ^ 32 := by simpa using few
      have counted := nBlocks_addBlocks calls
      rw [Nat.mod_eq_of_lt (by omega)] at counted
      rw [addBlocks_concat]
      refine (ih (by omega)).addBlock ?_ (by rintro rfl; rfl) call
      rw [← UInt32.toNat_inj, counted]
      exact List.length_eq_zero_iff

/-- AddBlock keeps true bounds of fewer than 2^32 blocks when, and only when, the last height above an earlier
one (0, where there is none) is the greatest of all. -/
theorem addBlock_bounds_iff (calls : Calls) :
    (addBlocks calls).Bounds calls ↔ calls.length < 2 ^ 32 ∧
      (calls ≠ [] → ∃ top, LastRaised 0 (heights calls) top ∧ IsGreatest {h | h ∈ heights calls} top) := by
  constructor
  · intro bounds
    have few : calls.length < 2 ^ 32 := bounds.nBlocks ▸ (addBlocks calls).nBlocks.toNat_lt
    exact ⟨few, fun some' => ⟨_, (tracks_addBlocks few).nHeightLast, bounds.nHeightLast some'⟩⟩
  · rintro ⟨few, ordered⟩
    have tracks := tracks_addBlocks few
    refine ⟨?_, tracks.nHeightFirst, fun some' => ?_, tracks.nTimeFirst, tracks.nTimeLast⟩
    · rw [nBlocks_addBlocks, Nat.mod_eq_of_lt few]
    · obtain ⟨top, raised, greatest⟩ := ordered some'
      rwa [tracks.nHeightLast.unique raised]

/-- The height of a single block is not its file's last height. -/
theorem addBlock_outside : ¬ (addBlocks [(7, 1000)]).Bounds [(7, 1000)] := by
  intro bounds
  have stands := (bounds.nHeightLast (by decide)).1
  exact absurd stands (by decide)

end CBlockFileInfo

end BitCrystal
