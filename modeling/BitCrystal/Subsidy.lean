import BitCrystal.Money

namespace BitCrystal

open Data

/-! # The subsidy schedule -/

/-- The operand and the count of the shift that GetBlockValue makes, if it makes one. -/
def shiftOf (nHeight : Int) : Option (Int × Int) :=
  if nHeight = 0 then none
  else if nHeight < 100 then some (nBlockRewardStartCoin, nHeight.tdiv 10)
  else if nHeight < 30000 ∨ nHeight.tmod 30000 ≠ 0 then some (nBlockRewardLastCoin, nHeight.tdiv 1440)
  else none

theorem subsidy_of_shift {nHeight : Nat} {value count : Int} (shift : shiftOf nHeight = some (value, count)) :
    subsidy nHeight = if nHeight < 100 then shiftRight64 value count
      else max nBlockRewardMinimumCoin (shiftRight64 value count) := by
  have run := getBlockValue_subsidy nHeight
  unfold shiftOf at shift
  unfold getBlockValue at run
  by_cases genesis : (nHeight : Int) = 0
  · rw [if_pos genesis] at shift
    cases shift
  rw [if_neg genesis] at shift run
  by_cases early : (nHeight : Int) < 100
  · rw [if_pos early] at shift run
    cases shift
    rw [if_pos (by omega)]
    exact (Except.ok.inj run).symm
  rw [if_neg early] at shift run
  by_cases regular : (nHeight : Int) < 30000 ∨ (nHeight : Int).tmod 30000 ≠ 0
  · rw [if_pos regular] at shift run
    cases shift
    obtain ⟨-, sum⟩ := addInt64_eq_ok.mp run
    rw [if_neg (by omega), ← sum, add_zero, max_def]
    split <;> split <;> omega
  · rw [if_neg regular] at shift
    cases shift

/-- C++ defines a shift of an int64 for the counts below its width. -/
def ShiftFits (nHeight : Int) : Prop :=
  ∀ value count, shiftOf nHeight = some (value, count) → 0 ≤ count ∧ count < 64

theorem shiftFits_iff {nHeight : Int} (positive : 1 ≤ nHeight) :
    ShiftFits nHeight ↔ nHeight < 92160 ∨ 30000 ∣ nHeight := by
  have days : nHeight.tdiv 1440 = nHeight / 1440 := Int.tdiv_eq_ediv_of_nonneg (by omega)
  have tens : nHeight.tdiv 10 = nHeight / 10 := Int.tdiv_eq_ediv_of_nonneg (by omega)
  have rest : nHeight.tmod 30000 = nHeight % 30000 := Int.tmod_eq_emod_of_nonneg (by omega)
  unfold ShiftFits shiftOf
  rw [if_neg (by omega), days, tens, rest]
  by_cases early : nHeight < 100
  · rw [if_pos early]
    refine ⟨fun _ => .inl (by omega), ?_⟩
    rintro _ value count ⟨⟩
    omega
  rw [if_neg early]
  by_cases regular : nHeight < 30000 ∨ nHeight % 30000 ≠ 0
  · rw [if_pos regular]
    constructor
    · intro fits
      have := (fits _ _ rfl).2
      exact .inl (by omega)
    · rintro below value count ⟨⟩
      omega
  · rw [if_neg regular]
    exact ⟨fun _ => .inr (by omega), nofun⟩

theorem shiftRight64_eq_div {value : Nat} {count : Int} (nonneg : 0 ≤ count) (small : count < 64) :
    shiftRight64 value count = ((value / 2 ^ count.toNat : Nat) : Int) := by
  rw [shiftRight64, Int.emod_eq_of_lt nonneg small, ← Nat.shiftRight_eq_div_pow]
  rfl

theorem subsidy_eq {nHeight : Nat} (late : 100 ≤ nHeight) (regular : ¬ 30000 ∣ nHeight) (below : nHeight < 92160) :
    subsidy nHeight = max nBlockRewardMinimumCoin ((nBlockRewardLastCoin.toNat / 2 ^ (nHeight / 1440) : Nat) : Int) := by
  have shift : shiftOf nHeight = some (nBlockRewardLastCoin, (nHeight : Int).tdiv 1440) := by
    have rest : (nHeight : Int).tmod 30000 = nHeight % 30000 := Int.tmod_eq_emod_of_nonneg (by omega)
    rw [shiftOf, if_neg (by omega), if_neg (by omega), if_pos (by rw [rest]; omega)]
  have days : (nHeight : Int).tdiv 1440 = ((nHeight / 1440 : Nat) : Int) := Int.tdiv_eq_ediv_of_nonneg (by omega)
  have whole : nBlockRewardLastCoin = (nBlockRewardLastCoin.toNat : Int) := by decide
  rw [subsidy_of_shift shift, if_neg (by omega), days, whole, shiftRight64_eq_div (by omega) (by omega),
    Int.toNat_natCast]
  rfl

/-- From one height to a later one the shifts are defined, and the subsidy does not rise, does not fall below
the minimum and does not leave it again. -/
structure Declines (first last : Nat) : Prop where
  firstShift : ShiftFits first
  lastShift : ShiftFits last
  falls : subsidy last ≤ subsidy first
  minimum : nBlockRewardMinimumCoin ≤ subsidy last
  stays : subsidy first = nBlockRewardMinimumCoin → subsidy last = nBlockRewardMinimumCoin

theorem Declines.of_below {first last : Nat} (late : 100 ≤ first) (order : first ≤ last)
    (firstRegular : ¬ 30000 ∣ first) (lastRegular : ¬ 30000 ∣ last) (below : last < 92160) : Declines first last := by
  have falls : subsidy last ≤ subsidy first := by
    rw [subsidy_eq late firstRegular (by omega), subsidy_eq (by omega) lastRegular below]
    refine max_le_max_left _ (Int.ofNat_le.mpr (Nat.div_le_div_left ?_ (by positivity)))
    exact Nat.pow_le_pow_right (by decide) (Nat.div_le_div_right order)
  have minimum : nBlockRewardMinimumCoin ≤ subsidy last := by
    rw [subsidy_eq (by omega) lastRegular below]
    exact le_max_left _ _
  exact {
    firstShift := (shiftFits_iff (by omega)).mpr (.inl (by omega))
    lastShift := (shiftFits_iff (by omega)).mpr (.inl (by omega))
    falls
    minimum
    stays := fun reached => le_antisymm (reached ▸ falls) minimum }

/-- The schedule is as it should be exactly up to the height at which the count reaches 64. -/
theorem subsidy_schedule_iff (nHeight : Int) (first last : Nat) :
    (1 ≤ nHeight → nHeight < 2 ^ 31 → (ShiftFits nHeight ↔ nHeight < 92160 ∨ 30000 ∣ nHeight)) ∧
    (100 ≤ first → first ≤ last → last < 2 ^ 31 → ¬ 30000 ∣ first → ¬ 30000 ∣ last →
      (Declines first last ↔ last < 92160)) := by
  refine ⟨fun positive _ => shiftFits_iff positive, ?_⟩
  intro late order _ firstRegular lastRegular
  constructor
  · intro declines
    rcases (shiftFits_iff (by omega)).mp declines.lastShift with below | divides
    · omega
    · omega
  · exact .of_below late order firstRegular lastRegular

/-- The first count that does not fit; on x86 the subsidy starts from the top again. -/
theorem subsidy_schedule_fails :
    ¬ ShiftFits 92160 ∧ ¬ Declines 92159 92160 ∧ subsidy 92159 < subsidy 92160 := by
  have fails : ¬ ShiftFits 92160 := by
    intro fits
    exact absurd ((shiftFits_iff (by decide)).mp fits) (by decide)
  refine ⟨fails, fun declines => fails declines.lastShift, by decide⟩

end BitCrystal
