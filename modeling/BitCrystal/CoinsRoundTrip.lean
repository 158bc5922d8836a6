import BitCrystal.Disconnect

namespace BitCrystal

open Data

/-! # Coins entries that come back unchanged from the database -/

/-- The amount is what DecompressAmount makes of what CompressAmount made of it. -/
def CTxOut.AmountKept (txout : CTxOut) : Prop :=
  CTxOutCompressor.restoredAmount txout.nValue = txout.nValue

theorem CTxOut.amountKept_of_moneyRange {txout : CTxOut} (money : moneyRange txout.value) : txout.AmountKept :=
  restoredAmount_eq money

theorem CTxOut.AmountKept.restored_eq {txout : CTxOut} (kept : txout.AmountKept) :
    CTxOutCompressor.restored txout = txout := by
  rw [CTxOutCompressor.restored, show CTxOutCompressor.restoredAmount txout.nValue = txout.nValue from kept]

namespace CCoins

/-- Unserialize gives back what Serialize wrote, in GetSerializeSize bytes, so
that `outs == outsBlock` holds for the entry that comes from the database. -/
structure RoundTrips [PubKeys] (coins : CCoins) : Prop where
  same : Reads unserialize coins.serialize coins
  size : coins.getSerializeSize = coins.serialize.length
  equal : ∀ outs rest left, unserialize (coins.serialize ++ rest) = some (outs, left) → outs = coins

/-- An entry that the format can express. -/
structure Expressible (coins : CCoins) : Prop where
  version : 0 ≤ coins.nVersion.toInt
  height : 0 ≤ coins.nHeight
  amounts : ∀ txout ∈ coins.vout, txout.isNull = false → txout.AmountKept
  spent : ∀ txout ∈ coins.vout, txout.isNull = true → txout = CTxOut.null

variable {coins : CCoins}

theorem Expressible.outputRestored (expressible : coins.Expressible) {nPos : Nat} {txout : CTxOut}
    (found : coins.vout[nPos]? = some txout) : coins.outputRestored nPos = txout := by
  have member := List.mem_of_getElem? found
  rw [CCoins.outputRestored, output, found, Option.filter_some]
  cases isNull : txout.isNull with
  | true => exact (expressible.spent txout member isNull).symm
  | false => exact (expressible.amounts txout member isNull).restored_eq

theorem outputRestored_of_isNull {nPos : Nat} {txout : CTxOut} (found : coins.vout[nPos]? = some txout)
    (isNull : txout.isNull = true) : coins.outputRestored nPos = CTxOut.null := by
  simp [CCoins.outputRestored, output, found, Option.filter_some, isNull]

theorem reloaded_getElem? {nPos : Nat} {txout : CTxOut} (found : coins.reloaded.vout[nPos]? = some txout) :
    txout = coins.outputRestored nPos := by
  have front := List.rdropWhile_prefix CTxOut.isNull
    ((List.range (2 + coins.calcMaskSize.1 * 8)).map coins.outputRestored)
  obtain ⟨within, rfl⟩ := List.getElem?_eq_some_iff.mp found
  have place := front.getElem within
  rw [List.getElem_map, List.getElem_range] at place
  exact place

theorem Expressible.output_reloaded (expressible : coins.Expressible) (nPos : Nat) :
    coins.reloaded.output nPos = coins.output nPos := by
  rw [CCoins.output_reloaded]
  cases found : coins.output nPos with
  | none => rfl
  | some txout =>
      obtain ⟨place, unspent⟩ := output_eq_some.mp found
      have kept := expressible.amounts txout (List.mem_of_getElem? place) unspent
      simp [Option.filter_some, kept.restored_eq, unspent]

theorem Expressible.length_reloaded_le (expressible : coins.Expressible) :
    coins.reloaded.vout.length ≤ coins.vout.length := by
  apply (clean_cleanup _).length_le
  intro nPos txout found
  have found : coins.reloaded.output nPos = some txout := found
  rw [expressible.output_reloaded] at found
  exact (List.getElem?_eq_some_iff.mp (output_eq_some.mp found).1).1

theorem Expressible.nHeight_reloaded (expressible : coins.Expressible) (sized : coins.Sized) :
    coins.reloaded.nHeight = coins.nHeight :=
  (diskHeight_eq_self_iff sized.height).mpr expressible.height

theorem Expressible.nVersion_reloaded (expressible : coins.Expressible) :
    coins.reloaded.nVersion = coins.nVersion :=
  diskVersion_eq_self_iff.mpr expressible.version

theorem Expressible.vout_reloaded (expressible : coins.Expressible) (clean : coins.Clean) :
    coins.reloaded.vout = coins.vout := by
  have shorter := expressible.length_reloaded_le
  have longer : coins.vout.length ≤ coins.reloaded.vout.length := by
    apply clean.length_le
    intro nPos txout found
    rw [← expressible.output_reloaded] at found
    exact (List.getElem?_eq_some_iff.mp (output_eq_some.mp found).1).1
  apply List.ext_getElem (by omega)
  intro nPos left right
  have place := reloaded_getElem? (List.getElem?_eq_getElem left)
  rw [place, expressible.outputRestored (List.getElem?_eq_getElem right)]

theorem Expressible.reloaded_eq (expressible : coins.Expressible) (sized : coins.Sized) (clean : coins.Clean) :
    coins.reloaded = coins := by
  have vout := expressible.vout_reloaded clean
  have height := expressible.nHeight_reloaded sized
  have version := expressible.nVersion_reloaded
  calc coins.reloaded = ⟨coins.fCoinBase, coins.reloaded.vout, coins.reloaded.nHeight, coins.reloaded.nVersion⟩ := rfl
    _ = coins := by rw [vout, height, version]

theorem Expressible.entry_reloaded (expressible : coins.Expressible) (sized : coins.Sized) :
    coins.reloaded.entry = coins.entry := by
  have outputs : coins.reloaded.output = coins.output := funext expressible.output_reloaded
  have pruned : coins.reloaded.isPruned = coins.isPruned := by
    rw [Bool.eq_iff_iff, isPruned_iff, isPruned_iff, outputs]
  rw [entry, entry, pruned, outputs, expressible.nHeight_reloaded sized, expressible.nVersion_reloaded]
  rfl

theorem Expressible.reloaded (expressible : coins.Expressible) (sized : coins.Sized) :
    coins.reloaded.Sized ∧ coins.reloaded.Expressible := by
  have height := expressible.nHeight_reloaded sized
  have shorter := expressible.length_reloaded_le
  have members : ∀ txout ∈ coins.reloaded.vout, txout = CTxOut.null ∨ txout.AmountKept ∧ txout.isNull = false := by
    intro txout member
    obtain ⟨nPos, place⟩ := List.mem_iff_getElem?.mp member
    rw [reloaded_getElem? place, CCoins.outputRestored]
    cases found : coins.output nPos with
    | none => exact .inl rfl
    | some original =>
        obtain ⟨original_place, unspent⟩ := output_eq_some.mp found
        have kept := expressible.amounts original (List.mem_of_getElem? original_place) unspent
        rw [Option.map_some, Option.getD_some, kept.restored_eq]
        exact .inr ⟨kept, unspent⟩
  refine ⟨⟨Nat.le_trans shorter sized.outputs, ?_, by rw [height]; exact sized.height⟩, ?_, ?_, ?_, ?_⟩
  · intro nPos txout found
    rw [expressible.output_reloaded] at found
    exact sized.scripts nPos txout found
  · exact diskVersion_nonneg coins.nVersion
  · rw [height]
    exact expressible.height
  · intro txout member unspent
    cases members txout member with
    | inl null =>
        rw [null] at unspent
        contradiction
    | inr kept => exact kept.1
  · intro txout member isNull
    cases members txout member with
    | inl null => exact null
    | inr kept =>
        rw [isNull] at kept
        exact absurd kept.2 (by decide)

theorem Expressible.of_reloaded_eq (sized : coins.Sized) (same : coins.reloaded = coins) : coins.Expressible where
  version := diskVersion_eq_self_iff.mp (congrArg CCoins.nVersion same)
  height := (diskHeight_eq_self_iff sized.height).mp (congrArg CCoins.nHeight same)
  amounts txout member unspent := by
    obtain ⟨nPos, place⟩ := List.mem_iff_getElem?.mp member
    have output := CCoins.output_reloaded coins nPos
    rw [same, output_eq_some.mpr ⟨place, unspent⟩, Option.map_some, Option.filter_some] at output
    split at output
    · exact congrArg CTxOut.nValue (Option.some.inj output).symm
    · contradiction
  spent txout member isNull := by
    obtain ⟨nPos, place⟩ := List.mem_iff_getElem?.mp member
    have kept : txout = coins.outputRestored nPos := reloaded_getElem? (by rw [same]; exact place)
    rw [kept, outputRestored_of_isNull place isNull]

/-- Exactly the entries without a negative number survive the database, amounts
and spent outputs being what they are in every transaction of the chain. -/
theorem roundTrips_iff [PubKeys] (coins : CCoins) (sized : coins.Sized) (unspent : coins.isPruned = false)
    (clean : coins.Clean) : coins.RoundTrips ↔ coins.Expressible := by
  have reads := sized.reads_reloaded unspent
  constructor
  · intro survives
    exact Expressible.of_reloaded_eq sized (reads.unique survives.same)
  · intro expressible
    rw [expressible.reloaded_eq sized clean] at reads
    refine ⟨reads, (serialize_length coins).symm, ?_⟩
    intro outs rest left run
    have again := run.symm.trans (reads rest)
    cases again
    rfl

end CCoins

namespace Sample

/-- An entry whose first and third output are spent. -/
def partlySpent (nVersion : Int32) : CCoins :=
  ⟨false, [CTxOut.null, ⟨7, []⟩, CTxOut.null, ⟨1000000, [0x51]⟩], 100, nVersion⟩

theorem partlySpent_output {nVersion : Int32} {nPos : Nat} {txout : CTxOut}
    (found : (partlySpent nVersion).output nPos = some txout) : txout = ⟨7, []⟩ ∨ txout = ⟨1000000, [0x51]⟩ := by
  obtain ⟨place, unspent⟩ := CCoins.output_eq_some.mp found
  have member := List.mem_of_getElem? place
  simp only [partlySpent, List.mem_cons, List.not_mem_nil, or_false] at member
  rcases member with rfl | small | rfl | large
  · contradiction
  · exact .inl small
  · contradiction
  · exact .inr large

theorem partlySpent_sized (nVersion : Int32) : (partlySpent nVersion).Sized where
  outputs := show 4 ≤ MAX_SIZE by decide
  scripts nPos txout found := by
    rcases partlySpent_output found with rfl | rfl <;> decide
  height := show -2 ^ 31 ≤ (100 : Int) ∧ (100 : Int) < 2 ^ 31 by decide

theorem partlySpent_clean (nVersion : Int32) : (partlySpent nVersion).Clean := by
  intro last found
  cases found
  decide

theorem partlySpent_expressible : (partlySpent 1).Expressible where
  version := by decide
  height := by decide
  amounts txout member unspent := by
    obtain ⟨nPos, place⟩ := List.mem_iff_getElem?.mp member
    apply CTxOut.amountKept_of_moneyRange
    rcases partlySpent_output (CCoins.output_eq_some.mpr ⟨place, unspent⟩) with rfl | rfl <;> decide
  spent txout member isNull := by
    simp only [partlySpent, List.mem_cons, List.not_mem_nil, or_false] at member
    rcases member with rfl | rfl | rfl | rfl
    · rfl
    · contradiction
    · rfl
    · contradiction

end Sample

open Sample

theorem CCoins.roundTrips_sample : (partlySpent 1).RoundTrips :=
  (CCoins.roundTrips_iff (partlySpent 1) (partlySpent_sized 1) rfl (partlySpent_clean 1)).mpr partlySpent_expressible

/-- An entry of a transaction with version -1 comes back with version 127. -/
theorem CCoins.roundTrips_negative_version :
    (partlySpent (-1)).Sized ∧ (partlySpent (-1)).isPruned = false ∧ (partlySpent (-1)).Clean ∧
      ¬ (partlySpent (-1)).RoundTrips := by
  refine ⟨partlySpent_sized _, rfl, partlySpent_clean _, ?_⟩
  intro survives
  have stored := ((partlySpent_sized (-1)).reads_reloaded rfl).unique survives.same
  have version : diskVersion (-1) = -1 := congrArg CCoins.nVersion stored
  have nonneg := diskVersion_eq_self_iff.mp version
  contradiction

end BitCrystal
