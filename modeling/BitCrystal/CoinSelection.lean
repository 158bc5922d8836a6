import BitCrystal.Data.Selection
import BitCrystal.MoneyText
import BitCrystal.WalletAmounts
import BitCrystal.WalletCache

namespace BitCrystal

open Data

/-! # Coin selection -/

/-! ## ApproximateBestSubset -/

/-- The variables of ApproximateBestSubset. -/
structure SubsetSearch where
  vfIncluded : List Bool
  nTotal : Int
  fReachedTarget : Bool
  vfBest : List Bool
  nBest : Int

namespace SubsetSearch

/-- The value at position `i` is taken, and given back where it reaches the target. -/
def take (nTargetValue : Int) (s : SubsetSearch) (value : Int) (i : Nat) : Except Failure SubsetSearch := do
  let nTotal ← addInt64 s.nTotal value
  let vfIncluded := s.vfIncluded.set i true
  if nTargetValue ≤ nTotal then
    let (vfBest, nBest) := if nTotal < s.nBest then (vfIncluded, nTotal) else (s.vfBest, s.nBest)
    let nTotal ← subInt64 nTotal value
    return ⟨vfIncluded.set i false, nTotal, true, vfBest, nBest⟩
  else return { s with vfIncluded, nTotal }

/-- One pass over the values, which looks at those that `picks` names. -/
def pass (nTargetValue : Int) (picks : SubsetSearch → Nat → Bool) (vValue : List Int) (s : SubsetSearch) :
    Except Failure SubsetSearch :=
  vValue.zipIdx.foldlM (fun s entry =>
    if picks s entry.2 then s.take nTargetValue entry.1 entry.2 else .ok s) s

/-- One repetition; `random` are the bits of `insecure_rand` in its first pass. -/
def repetition (nTargetValue : Int) (random : Nat → Bool) (vValue : List Int) (s : SubsetSearch) :
    Except Failure SubsetSearch := do
  let s := { s with vfIncluded := List.replicate vValue.length false, nTotal := 0, fReachedTarget := false }
  let s ← s.pass nTargetValue (fun _ i => random i) vValue
  if s.fReachedTarget then return s
  else s.pass nTargetValue (fun s i => s.vfIncluded[i]? = some false) vValue

/-- The repetitions from `nRep` on. -/
def repetitions (nTargetValue : Int) (random : Nat → Nat → Bool) (vValue : List Int) :
    Nat → Nat → SubsetSearch → Except Failure SubsetSearch
  | 0, _, s => .ok s
  | remaining + 1, nRep, s =>
      if s.nBest = nTargetValue then .ok s
      else do
        let s ← s.repetition nTargetValue (random nRep) vValue
        repetitions nTargetValue random vValue remaining (nRep + 1) s

end SubsetSearch

/-- ApproximateBestSubset: `vfBest` and `nBest`. -/
def approximateBestSubset (random : Nat → Nat → Bool) (vValue : List Int) (nTotalLower nTargetValue : Int)
    (iterations : Nat) : Except Failure (List Bool × Int) := do
  let s ← SubsetSearch.repetitions nTargetValue random vValue iterations 0
    ⟨[], 0, false, List.replicate vValue.length true, nTotalLower⟩
  return (s.vfBest, s.nBest)

structure BestSubset (vValue : List Int) (nTargetValue : Int) (best : List Bool × Int) : Prop where
  length : best.1.length = vValue.length
  total : (masked vValue best.1).sum = best.2
  reached : nTargetValue ≤ best.2

namespace SubsetSearch

def best (s : SubsetSearch) : List Bool × Int := (s.vfBest, s.nBest)

/-- What a pass keeps: `nTotal` is the total of `vfIncluded`. -/
structure Searching (vValue : List Int) (nTargetValue : Int) (s : SubsetSearch) : Prop where
  length : s.vfIncluded.length = vValue.length
  total : (masked vValue s.vfIncluded).sum = s.nTotal
  best : BestSubset vValue nTargetValue s.best

end SubsetSearch

/-- Values that are not negative and whose sum fits. -/
structure Summable (vValue : List Int) : Prop where
  nonneg : ∀ value ∈ vValue, 0 ≤ value
  fits : int64Range vValue.sum

theorem Summable.perm {vValue others : List Int} (summable : Summable vValue) (same : others.Perm vValue) :
    Summable others :=
  ⟨fun value member => summable.nonneg value (same.mem_iff.mp member), same.sum_eq ▸ summable.fits⟩

theorem Summable.part {vValue part : List Int} (summable : Summable vValue) (inside : part.Sublist vValue) :
    Summable part := by
  have nonneg : ∀ value ∈ part, 0 ≤ value := fun value member => summable.nonneg value (inside.subset member)
  have low : 0 ≤ part.sum := List.sum_nonneg nonneg
  have high : part.sum ≤ vValue.sum := inside.sum_le_sum summable.nonneg
  obtain ⟨-, upper⟩ := summable.fits
  exact ⟨nonneg, by omega, by omega⟩

/-- Additions whose results are in range under a condition fail at most where it does not hold. -/
theorem addInt64_unless {a b : Int} {bounded : Prop} (fits : bounded → int64Range (a + b)) :
    Sat (addInt64 a b) (fun sum => sum = a + b) fun _ => ¬ bounded := by
  unfold addInt64
  split
  · exact rfl
  · rename_i out
    exact fun holds => out (fits holds)

theorem subInt64_unless {a b : Int} {bounded : Prop} (fits : bounded → int64Range (a - b)) :
    Sat (subInt64 a b) (fun difference => difference = a - b) fun _ => ¬ bounded := by
  unfold subInt64
  split
  · exact rfl
  · rename_i out
    exact fun holds => out (fits holds)

namespace SubsetSearch

variable {vValue : List Int} {nTargetValue : Int} {s : SubsetSearch}

theorem take_sat (searching : Searching vValue nTargetValue s) {value : Int} {i : Nat}
    (found : vValue[i]? = some value) (unset : s.vfIncluded[i]? = some false) :
    Sat (s.take nTargetValue value i) (fun next => Searching vValue nTargetValue next ∧
      ∀ j, j ≠ i → next.vfIncluded[j]? = s.vfIncluded[j]?) fun _ => ¬ Summable vValue := by
  have added : (masked vValue (s.vfIncluded.set i true)).sum = s.nTotal + value := by
    rw [sum_masked_set found unset, searching.total]
  refine (addInt64_unless fun summable => ?_).bind ?_
  · rw [← added]
    exact (summable.part (masked_sublist vValue _)).fits
  rintro nTotal rfl
  by_cases reaches : nTargetValue ≤ s.nTotal + value
  · simp only [if_pos reaches, set_set_unset unset]
    refine (subInt64_unless fun summable => ?_).bind ?_
    · rw [Int.add_sub_cancel, ← searching.total]
      exact (summable.part (masked_sublist vValue _)).fits
    rintro nTotal rfl
    refine ⟨⟨searching.length, ?_, ?_⟩, fun _ _ => rfl⟩
    · rw [searching.total, Int.add_sub_cancel]
    · by_cases less : s.nTotal + value < s.nBest
      · simp only [SubsetSearch.best, if_pos less]
        exact ⟨by rw [List.length_set, searching.length], added, reaches⟩
      · simp only [SubsetSearch.best, if_neg less]
        exact searching.best
  · rw [if_neg reaches]
    refine ⟨⟨?_, added, searching.best⟩, fun j other => ?_⟩
    · rw [List.length_set, searching.length]
    · exact List.getElem?_set_ne other.symm

theorem pass_sat {picks : SubsetSearch → Nat → Bool}
    (local_picks : ∀ s next : SubsetSearch, ∀ i, next.vfIncluded[i]? = s.vfIncluded[i]? →
      picks next i = true → picks s i = true)
    (searching : Searching vValue nTargetValue s)
    (free : ∀ i < vValue.length, picks s i = true → s.vfIncluded[i]? = some false) :
    Sat (s.pass nTargetValue picks vValue) (Searching vValue nTargetValue) fun _ => ¬ Summable vValue := by
  refine (Sat.foldlM (fun s rest => Searching vValue nTargetValue s ∧ (rest.map Prod.snd).Nodup ∧
    ∀ entry ∈ rest, vValue[entry.2]? = some entry.1 ∧
      (picks s entry.2 = true → s.vfIncluded[entry.2]? = some false)) ?_ _ _ ?_).weaken fun _ kept => kept.1
  · rintro s ⟨value, i⟩ rest ⟨searching, distinct, entries⟩
    rw [List.map_cons, List.nodup_cons] at distinct
    obtain ⟨found, unset⟩ := entries (value, i) List.mem_cons_self
    have later := fun entry member => entries entry (List.mem_cons_of_mem _ member)
    refine Sat.ite (fun picked => ?_) fun _ => ⟨searching, distinct.2, later⟩
    refine (take_sat searching found (unset picked)).weaken fun next kept => ?_
    refine ⟨kept.1, distinct.2, fun entry member => ⟨(later entry member).1, fun picked => ?_⟩⟩
    have other : entry.2 ≠ i := fun same => distinct.1 (List.mem_map.mpr ⟨entry, member, same⟩)
    have same := kept.2 entry.2 other
    rw [same]
    exact (later entry member).2 (local_picks s next entry.2 same picked)
  · refine ⟨searching, ?_, fun entry member => ?_⟩
    · rw [List.zipIdx_map_snd]
      exact List.nodup_range'
    · have found := List.mem_zipIdx_iff_getElem?.mp member
      exact ⟨found, free entry.2 (List.getElem?_eq_some_iff.mp found).1⟩

theorem repetition_sat (best : BestSubset vValue nTargetValue s.best)
    (random : Nat → Bool) :
    Sat (s.repetition nTargetValue random vValue) (fun s => BestSubset vValue nTargetValue s.best)
      fun _ => ¬ Summable vValue := by
  have start : Searching vValue nTargetValue
      { s with vfIncluded := List.replicate vValue.length false, nTotal := 0, fReachedTarget := false } := by
    refine ⟨List.length_replicate, ?_, best⟩
    rw [masked_none, List.sum_nil]
  refine (pass_sat (fun _ _ _ _ => id) start fun i bound _ => ?_).bind fun s searching => ?_
  · rw [List.getElem?_replicate, if_pos bound]
  · refine Sat.ite (fun _ => searching.best) fun _ => ?_
    refine (pass_sat (fun s next i same picked => ?_) searching fun i _ picked => ?_).weaken
      fun _ searching => searching.best
    · rwa [← same]
    · exact of_decide_eq_true picked

theorem repetitions_sat (random : Nat → Nat → Bool) (remaining nRep : Nat)
    (best : BestSubset vValue nTargetValue s.best) :
    Sat (repetitions nTargetValue random vValue remaining nRep s)
      (fun s => BestSubset vValue nTargetValue s.best) fun _ => ¬ Summable vValue := by
  induction remaining generalizing nRep s with
  | zero => exact best
  | succ remaining ih =>
      refine Sat.ite (fun _ => best) fun _ => ?_
      exact (repetition_sat best (random nRep)).bind fun next kept => ih (nRep + 1) kept

end SubsetSearch

theorem approximateBestSubset_sat {vValue : List Int} {nTargetValue : Int}
    (enough : nTargetValue ≤ vValue.sum) (random : Nat → Nat → Bool) (iterations : Nat) :
    Sat (approximateBestSubset random vValue vValue.sum nTargetValue iterations) (BestSubset vValue nTargetValue)
      fun _ => ¬ Summable vValue := by
  have start : BestSubset vValue nTargetValue (List.replicate vValue.length true, vValue.sum) :=
    ⟨List.length_replicate, by rw [masked_all], enough⟩
  exact (SubsetSearch.repetitions_sat random iterations 0 start).bind fun s best => best

/-! ## SelectCoinsMinConf -/

/-- `pair<const CWalletTx*, unsigned int>`: an output of the wallet transaction at `hash`. -/
structure Coin where
  hash : UInt256
  tx : CWalletTx
  i : Nat
  inRange : i < tx.vout.length
deriving DecidableEq

namespace Coin

def txout (coin : Coin) : CTxOut := coin.tx.vout.get ⟨coin.i, coin.inRange⟩

def value (coin : Coin) : Int := coin.txout.value

end Coin

structure COutput extends Coin where
  nDepth : Int

/-- What SelectCoinsMinConf leaves to chance: the order that `random_shuffle` makes, the order in which
`sort` leaves equal values, and the bits of `insecure_rand` in the two searches. -/
structure SelectionChance where
  shuffle : List COutput → List COutput
  shuffle_perm : ∀ vCoins, (shuffle vCoins).Perm vCoins
  sort : List Coin → List Coin
  sort_perm : ∀ vValue, (sort vValue).Perm vValue
  sort_falls : ∀ vValue, (sort vValue).Pairwise fun first second => second.value ≤ first.value
  random : Nat → Nat → Bool
  randomForChange : Nat → Nat → Bool

/-- The variables of the first loop. `coinLowestLarger` has no coin as long as its pointer is null. -/
structure Candidates where
  vValue : List Coin
  nTotalLower : Int
  coinLowestLarger : Option Coin

section

variable [ScriptDigests] (w : TxWallet) (nTargetValue nConfMine nConfTheirs : Int)

/-- IsFromMe of a wallet transaction. -/
def CWalletTx.isFromMe (wtx : CWalletTx) (w : TxWallet) : Except Failure Bool := do
  let nDebit ← (wtx.getDebit w).2
  return 0 < nDebit

/-- The loop over the shuffled coins, which stops at a coin of exactly the target. -/
def gatherCoins : List COutput → Candidates → Except Failure (Coin ⊕ Candidates)
  | [], found => .ok (.inr found)
  | output :: rest, found => do
      let fFromMe ← output.tx.isFromMe w
      if output.nDepth < (if fFromMe then nConfMine else nConfTheirs) then gatherCoins rest found
      else
        let coin := output.toCoin
        if coin.value = nTargetValue then return .inl coin
        else
          let nLimit ← addInt64 nTargetValue CENT
          if coin.value < nLimit then
            let nTotalLower ← addInt64 found.nTotalLower coin.value
            gatherCoins rest { found with vValue := found.vValue ++ [coin], nTotalLower }
          else if coin.value < (found.coinLowestLarger.map Coin.value).getD (2 ^ 63 - 1) then
            gatherCoins rest { found with coinLowestLarger := some coin }
          else gatherCoins rest found

/-- `setCoinsRet.insert` and `nValueRet +=` for one coin after the other; a set is a list without
repetitions, whose order means nothing. -/
def takeCoins (coins : List Coin) : Except Failure (List Coin × Int) :=
  coins.foldlM (fun taken coin => do
    let nValueRet ← addInt64 taken.2 coin.value
    return (taken.1.insert coin, nValueRet)) ([], 0)

/-- The return value, `setCoinsRet` and `nValueRet`. -/
def selectCoinsMinConf (chance : SelectionChance) (vCoins : List COutput) :
    Except Failure (Bool × List Coin × Int) := do
  match ← gatherCoins w nTargetValue nConfMine nConfTheirs (chance.shuffle vCoins) ⟨[], 0, none⟩ with
  | .inl coin => return (true, [coin], coin.value)
  | .inr found =>
      if found.nTotalLower = nTargetValue then
        let taken ← takeCoins found.vValue
        return (true, taken)
      else if found.nTotalLower < nTargetValue then
        match found.coinLowestLarger with
        | none => return (false, [], 0)
        | some coin => return (true, [coin], coin.value)
      else
        -- solve subset sum by stochastic approximation
        let vValue := chance.sort found.vValue
        let values := vValue.map Coin.value
        let best ← approximateBestSubset chance.random values found.nTotalLower nTargetValue 1000
        let nLimit ← addInt64 nTargetValue CENT
        let best ← (if best.2 ≠ nTargetValue ∧ nLimit ≤ found.nTotalLower then
            approximateBestSubset chance.randomForChange values found.nTotalLower nLimit 1000
          else .ok best)
        let bigger := found.coinLowestLarger.filter fun coin =>
          (best.2 ≠ nTargetValue ∧ best.2 < nLimit) ∨ coin.value ≤ best.2
        match bigger with
        | some coin => return (true, [coin], coin.value)
        | none =>
            let taken ← takeCoins (masked vValue best.1)
            return (true, taken)

/-- A coin is eligible when it is deep enough for the one who made its transaction. -/
def eligible (output : COutput) : Bool :=
  match output.tx.isFromMe w with
  | .error _ => false
  | .ok fFromMe => (if fFromMe then nConfMine else nConfTheirs) ≤ output.nDepth

def eligibleCoins (vCoins : List COutput) : List Coin :=
  (vCoins.filter (eligible w nConfMine nConfTheirs)).map COutput.toCoin

end

/-- What the callers promise of the available coins: they are distinct, with values that are not
negative. -/
structure Available (vCoins : List COutput) : Prop where
  distinct : (vCoins.map COutput.toCoin).Nodup
  nonneg : ∀ output ∈ vCoins, 0 ≤ output.value

namespace Available

variable [ScriptDigests] (w : TxWallet) (nConfMine nConfTheirs : Int) {vCoins : List COutput}

omit [ScriptDigests] in
theorem perm {others : List COutput} (available : Available vCoins) (same : others.Perm vCoins) :
    Available others :=
  ⟨(same.map COutput.toCoin).nodup_iff.mpr available.distinct,
    fun output member => available.nonneg output (same.mem_iff.mp member)⟩

theorem eligible_nonneg (available : Available vCoins) :
    ∀ coin ∈ eligibleCoins w nConfMine nConfTheirs vCoins, 0 ≤ coin.value := by
  intro coin member
  obtain ⟨output, chosen, rfl⟩ := List.mem_map.mp member
  exact available.nonneg output (List.mem_of_mem_filter chosen)

theorem eligible_distinct (available : Available vCoins) :
    (eligibleCoins w nConfMine nConfTheirs vCoins).Nodup :=
  available.distinct.sublist (List.filter_sublist.map COutput.toCoin)

end Available

/-- What the loop knows of the eligible coins it has seen. -/
structure Gathered (nTargetValue : Int) (coins : List Coin) (found : Candidates) : Prop where
  vValue : found.vValue = coins.filter fun coin => coin.value < nTargetValue + CENT
  total : found.nTotalLower = (found.vValue.map Coin.value).sum
  larger : ∀ coin, found.coinLowestLarger = some coin → coin ∈ coins ∧ nTargetValue + CENT ≤ coin.value
  noLarger : found.coinLowestLarger = none →
    ∀ coin ∈ coins, nTargetValue + CENT ≤ coin.value → 2 ^ 63 - 1 ≤ coin.value

namespace Gathered

variable {nTargetValue : Int} {coins : List Coin} {found : Candidates} {coin : Coin}

theorem start : Gathered nTargetValue [] ⟨[], 0, none⟩ where
  vValue := rfl
  total := rfl
  larger := by simp
  noLarger := by simp

theorem lower (gathered : Gathered nTargetValue coins found) (less : coin.value < nTargetValue + CENT) :
    Gathered nTargetValue (coins ++ [coin])
      { found with vValue := found.vValue ++ [coin], nTotalLower := found.nTotalLower + coin.value } where
  vValue := by simp [gathered.vValue, less]
  total := by simp [gathered.total]
  larger := fun other same => by
    obtain ⟨member, bound⟩ := gathered.larger other same
    exact ⟨List.mem_append_left [coin] member, bound⟩
  noLarger := fun none other member limit => by
    rcases List.mem_append.mp member with old | new
    · exact gathered.noLarger none other old limit
    · rw [List.mem_singleton.mp new] at limit
      exact absurd limit (Int.not_le.mpr less)

theorem upper (gathered : Gathered nTargetValue coins found) (limit : nTargetValue + CENT ≤ coin.value)
    (coinLowestLarger : Option Coin)
    (either : ∀ kept, coinLowestLarger = some kept → kept = coin ∨ found.coinLowestLarger = some kept)
    (forgotten : coinLowestLarger = none → found.coinLowestLarger = none ∧ 2 ^ 63 - 1 ≤ coin.value) :
    Gathered nTargetValue (coins ++ [coin]) { found with coinLowestLarger } where
  vValue := by simp [gathered.vValue, limit]
  total := gathered.total
  larger := fun kept same => by
    cases either kept same with
    | inl new =>
        subst new
        exact ⟨List.mem_append_right coins (List.mem_singleton_self kept), limit⟩
    | inr old =>
        obtain ⟨member, bound⟩ := gathered.larger kept old
        exact ⟨List.mem_append_left [coin] member, bound⟩
  noLarger := fun none other member bound => by
    obtain ⟨before, largest⟩ := forgotten none
    rcases List.mem_append.mp member with old | new
    · exact gathered.noLarger before other old bound
    · rw [List.mem_singleton.mp new]
      exact largest

end Gathered

section

variable [ScriptDigests] {w : TxWallet} {nTargetValue nConfMine nConfTheirs : Int}

/-- The values are small enough not to overflow. -/
structure SmallValues (w : TxWallet) (nTargetValue nConfMine nConfTheirs : Int) (vCoins : List COutput) : Prop where
  target : int64Range (nTargetValue + CENT)
  coins : ((eligibleCoins w nConfMine nConfTheirs vCoins).map Coin.value).sum < 2 ^ 63 - 1

/-- IsFromMe of one of the coins fails. -/
def DebitFails (w : TxWallet) (vCoins : List COutput) (failure : Failure) : Prop :=
  ∃ output ∈ vCoins, output.tx.isFromMe w = .error failure

def SelectionFails (w : TxWallet) (nTargetValue nConfMine nConfTheirs : Int) (vCoins : List COutput)
    (failure : Failure) : Prop :=
  SmallValues w nTargetValue nConfMine nConfTheirs vCoins → DebitFails w vCoins failure

/-- What the loop ends with. -/
def Gathering (nTargetValue : Int) (coins : List Coin) : Coin ⊕ Candidates → Prop
  | .inl coin => coin ∈ coins ∧ coin.value = nTargetValue
  | .inr found => Gathered nTargetValue coins found

theorem eligibleCoins_append {output : COutput} (accepted : eligible w nConfMine nConfTheirs output = true)
    (seen : List COutput) : eligibleCoins w nConfMine nConfTheirs (seen ++ [output]) =
      eligibleCoins w nConfMine nConfTheirs seen ++ [output.toCoin] := by
  rw [eligibleCoins, List.filter_append, List.filter_singleton, accepted, List.map_append]
  rfl

theorem eligibleCoins_append_not {output : COutput} (refused : eligible w nConfMine nConfTheirs output = false)
    (seen : List COutput) : eligibleCoins w nConfMine nConfTheirs (seen ++ [output]) =
      eligibleCoins w nConfMine nConfTheirs seen := by
  rw [eligibleCoins, List.filter_append, List.filter_singleton, refused, cond_false, List.append_nil, eligibleCoins]

theorem SmallValues.summable {vCoins : List COutput} (available : Available vCoins)
    (small : SmallValues w nTargetValue nConfMine nConfTheirs vCoins) :
    Summable ((eligibleCoins w nConfMine nConfTheirs vCoins).map Coin.value) := by
  have nonneg : ∀ value ∈ (eligibleCoins w nConfMine nConfTheirs vCoins).map Coin.value, 0 ≤ value := by
    intro value member
    obtain ⟨coin, inside, rfl⟩ := List.mem_map.mp member
    exact available.eligible_nonneg w nConfMine nConfTheirs coin inside
  have low := List.sum_nonneg nonneg
  have upper := small.coins
  exact ⟨nonneg, by omega, by omega⟩

theorem SelectionFails.of_not_small {vCoins : List COutput} {failure : Failure}
    (large : ¬ SmallValues w nTargetValue nConfMine nConfTheirs vCoins) :
    SelectionFails w nTargetValue nConfMine nConfTheirs vCoins failure :=
  fun small => absurd small large

theorem Gathered.fits {vCoins : List COutput} (available : Available vCoins)
    (small : SmallValues w nTargetValue nConfMine nConfTheirs vCoins) {coins : List Coin} {found : Candidates}
    (part : coins.Sublist (eligibleCoins w nConfMine nConfTheirs vCoins))
    (gathered : Gathered nTargetValue coins found) : int64Range found.nTotalLower := by
  rw [gathered.total, gathered.vValue]
  exact ((small.summable available).part ((List.filter_sublist.trans part).map Coin.value)).fits

theorem gatherCoins_sat {vCoins : List COutput} (available : Available vCoins) {seen rest : List COutput}
    {found : Candidates} (whole : seen ++ rest = vCoins)
    (gathered : Gathered nTargetValue (eligibleCoins w nConfMine nConfTheirs seen) found) :
    Sat (gatherCoins w nTargetValue nConfMine nConfTheirs rest found)
      (Gathering nTargetValue (eligibleCoins w nConfMine nConfTheirs vCoins))
      (SelectionFails w nTargetValue nConfMine nConfTheirs vCoins) := by
  induction rest generalizing seen found with
  | nil =>
      rw [List.append_nil] at whole
      subst whole
      exact gathered
  | cons output rest ih =>
      have next : seen ++ [output] ++ rest = vCoins := by
        rw [List.append_assoc, List.singleton_append, whole]
      have member : output ∈ vCoins := whole ▸ List.mem_append_right seen List.mem_cons_self
      rw [gatherCoins]
      cases fromMe : output.tx.isFromMe w with
      | error failure => exact fun _ => ⟨output, member, fromMe⟩
      | ok fFromMe =>
          rw [ok_bind]
          have depth : eligible w nConfMine nConfTheirs output =
              decide ((if fFromMe then nConfMine else nConfTheirs) ≤ output.nDepth) := by
            rw [eligible, fromMe]
          by_cases shallow : output.nDepth < (if fFromMe then nConfMine else nConfTheirs)
          · rw [if_pos shallow]
            have refused : eligible w nConfMine nConfTheirs output = false := by
              rw [depth, decide_eq_false (Int.not_le.mpr shallow)]
            exact ih next (eligibleCoins_append_not refused seen ▸ gathered)
          · rw [if_neg shallow]
            have accepted : eligible w nConfMine nConfTheirs output = true := by
              rw [depth, decide_eq_true (Int.not_lt.mp shallow)]
            have coins := eligibleCoins_append accepted seen
            have inside : (eligibleCoins w nConfMine nConfTheirs (seen ++ [output])).Sublist
                (eligibleCoins w nConfMine nConfTheirs vCoins) := by
              rw [← next]
              exact ((List.sublist_append_left _ rest).filter _).map COutput.toCoin
            by_cases exactly : output.value = nTargetValue
            · rw [if_pos exactly]
              refine ⟨inside.subset ?_, exactly⟩
              rw [coins]
              exact List.mem_append_right _ (List.mem_singleton_self _)
            · rw [if_neg exactly]
              refine ((addInt64_unless SmallValues.target).weaken_fault fun _ => .of_not_small).bind ?_
              rintro nLimit rfl
              by_cases less : output.value < nTargetValue + CENT
              · have lower := gathered.lower less
                rw [← coins] at lower
                rw [if_pos less]
                refine ((addInt64_unless fun small => lower.fits available small inside).weaken_fault
                  fun _ => .of_not_small).bind ?_
                rintro nTotalLower rfl
                exact ih next lower
              · rw [if_neg less]
                have keeps := gathered.upper (Int.not_lt.mp less)
                rw [← coins] at keeps
                split
                · exact ih next (keeps (some output.toCoin) (fun kept same => .inl (Option.some.inj same).symm) nofun)
                · rename_i notLess
                  refine ih next (keeps found.coinLowestLarger (fun kept same => .inr same) fun none => ⟨none, ?_⟩)
                  simpa [none] using notLess

/-! ## What is selected -/

/-- Distinct coins of the list; their sum is the value, and it reaches the target. -/
structure Selected (nTargetValue : Int) (coins : List Coin) (taken : List Coin × Int) : Prop where
  distinct : taken.1.Nodup
  subset : ∀ coin ∈ taken.1, coin ∈ coins
  total : taken.2 = (taken.1.map Coin.value).sum
  reached : nTargetValue ≤ taken.2

/-- Coins are selected exactly where all of them together reach the target. -/
def Decides (nTargetValue : Int) (coins : List Coin) (result : Bool × List Coin × Int) : Prop :=
  (result.1 = true ↔ nTargetValue ≤ (coins.map Coin.value).sum) ∧
    (result.1 = true → Selected nTargetValue coins result.2)

omit [ScriptDigests] in
theorem Decides.of_selected {coins : List Coin} {taken : List Coin × Int}
    (nonneg : ∀ coin ∈ coins, 0 ≤ coin.value) (selected : Selected nTargetValue coins taken) :
    Decides nTargetValue coins (true, taken) := by
  refine ⟨iff_of_true rfl ?_, fun _ => selected⟩
  obtain ⟨part, same, inside⟩ := List.subperm_of_subset selected.distinct selected.subset
  calc nTargetValue
    _ ≤ (taken.1.map Coin.value).sum := selected.total ▸ selected.reached
    _ = (part.map Coin.value).sum := (same.map Coin.value).sum_eq.symm
    _ ≤ (coins.map Coin.value).sum := by
      refine (inside.map Coin.value).sum_le_sum fun value member => ?_
      obtain ⟨coin, known, rfl⟩ := List.mem_map.mp member
      exact nonneg coin known

omit [ScriptDigests] in
theorem Selected.perm {coins others : List Coin} {taken : List Coin × Int} (same : coins.Perm others)
    (selected : Selected nTargetValue coins taken) : Selected nTargetValue others taken :=
  ⟨selected.distinct, fun coin member => same.mem_iff.mp (selected.subset coin member), selected.total,
    selected.reached⟩

omit [ScriptDigests] in
theorem takeCoins_sat {coins : List Coin} (distinct : coins.Nodup) :
    Sat (takeCoins coins) (fun taken => taken = (coins.reverse, (coins.map Coin.value).sum))
      fun _ => ¬ Summable (coins.map Coin.value) := by
  -- the coins taken so far are a prefix of all
  refine (Sat.foldlM (fun taken rest => ∃ seen, seen ++ rest = coins ∧
    taken = (seen.reverse, (seen.map Coin.value).sum)) ?_ coins ([], 0) ⟨[], rfl, rfl⟩).weaken ?_
  · rintro taken coin rest ⟨seen, whole, rfl⟩
    have next : seen ++ [coin] ++ rest = coins := by rw [List.append_assoc, List.singleton_append, whole]
    have inside : (seen ++ [coin]).Sublist coins := next ▸ List.sublist_append_left _ rest
    have sum : ((seen ++ [coin]).map Coin.value).sum = (seen.map Coin.value).sum + coin.value := by simp
    have new : coin ∉ seen.reverse := by
      have once := List.nodup_append.mp (distinct.sublist inside)
      rw [List.mem_reverse]
      exact fun member => once.2.2 coin member coin (List.mem_singleton_self coin) rfl
    refine (addInt64_unless fun summable => sum ▸ (summable.part (inside.map Coin.value)).fits).bind ?_
    rintro nValueRet rfl
    refine ⟨seen ++ [coin], next, ?_⟩
    rw [sum, List.reverse_append, List.insert_of_not_mem new]
    rfl
  · rintro taken ⟨seen, whole, rfl⟩
    rw [← whole, List.append_nil]

omit [ScriptDigests] in
theorem takeCoins_selected {coins taken : List Coin} (distinct : coins.Nodup) (inside : coins ⊆ taken)
    (reached : nTargetValue ≤ (coins.map Coin.value).sum) :
    Sat (takeCoins coins) (Selected nTargetValue taken) fun _ => ¬ Summable (coins.map Coin.value) := by
  refine (takeCoins_sat distinct).weaken ?_
  rintro _ rfl
  refine ⟨List.nodup_reverse.mpr distinct, fun coin member => inside (List.mem_reverse.mp member), ?_, reached⟩
  exact ((List.reverse_perm coins).map Coin.value).sum_eq.symm

omit [ScriptDigests] in
theorem Selected.single {coins : List Coin} {coin : Coin} (member : coin ∈ coins) (reached : nTargetValue ≤ coin.value) :
    Selected nTargetValue coins ([coin], coin.value) := by
  refine ⟨List.nodup_singleton coin, fun other inside => ?_, by simp, reached⟩
  exact List.mem_singleton.mp inside ▸ member

variable (w nConfMine nConfTheirs) in
theorem eligibleCoins_perm {vCoins others : List COutput} (same : others.Perm vCoins) :
    (eligibleCoins w nConfMine nConfTheirs others).Perm (eligibleCoins w nConfMine nConfTheirs vCoins) :=
  (same.filter _).map COutput.toCoin

theorem SmallValues.perm {vCoins others : List COutput} (same : others.Perm vCoins)
    (small : SmallValues w nTargetValue nConfMine nConfTheirs vCoins) :
    SmallValues w nTargetValue nConfMine nConfTheirs others := by
  refine ⟨small.target, ?_⟩
  rw [((eligibleCoins_perm w nConfMine nConfTheirs same).map Coin.value).sum_eq]
  exact small.coins

theorem SelectionFails.perm {vCoins others : List COutput} (same : others.Perm vCoins) {failure : Failure}
    (fails : SelectionFails w nTargetValue nConfMine nConfTheirs others failure) :
    SelectionFails w nTargetValue nConfMine nConfTheirs vCoins failure := by
  intro small
  obtain ⟨output, member, failed⟩ := fails (small.perm same)
  exact ⟨output, same.mem_iff.mp member, failed⟩

theorem selectCoinsMinConf_sat {vCoins : List COutput} (available : Available vCoins) (chance : SelectionChance) :
    Sat (selectCoinsMinConf w nTargetValue nConfMine nConfTheirs chance vCoins)
      (fun result => (result.1 = true →
          Selected nTargetValue (eligibleCoins w nConfMine nConfTheirs vCoins) result.2) ∧
        (result.1 = false → SmallValues w nTargetValue nConfMine nConfTheirs vCoins →
          ((eligibleCoins w nConfMine nConfTheirs vCoins).map Coin.value).sum < nTargetValue))
      (SelectionFails w nTargetValue nConfMine nConfTheirs vCoins) := by
  have same := chance.shuffle_perm vCoins
  have order := eligibleCoins_perm w nConfMine nConfTheirs same
  have distinct := (available.perm same).eligible_distinct w nConfMine nConfTheirs
  have summable (small : SmallValues w nTargetValue nConfMine nConfTheirs vCoins) :=
    (small.perm same).summable (available.perm same)
  have below (small : SmallValues w nTargetValue nConfMine nConfTheirs vCoins) := (small.perm same).coins
  refine Sat.bind ((gatherCoins_sat (available.perm same) (List.nil_append _) .start).weaken_fault
    fun failure => SelectionFails.perm same) fun result gathering => ?_
  generalize eligibleCoins w nConfMine nConfTheirs (chance.shuffle vCoins) = coins at *
  have chosen (taken : List Coin × Int) (selected : Selected nTargetValue coins taken) :
      (true = true → Selected nTargetValue (eligibleCoins w nConfMine nConfTheirs vCoins) taken) ∧
        (true = false → SmallValues w nTargetValue nConfMine nConfTheirs vCoins →
          ((eligibleCoins w nConfMine nConfTheirs vCoins).map Coin.value).sum < nTargetValue) :=
    ⟨fun _ => selected.perm order, nofun⟩
  cases result with
  | inl coin => exact chosen _ (.single gathering.1 gathering.2.ge)
  | inr found =>
      have gathered : Gathered nTargetValue coins found := gathering
      have part : found.vValue.Sublist coins := gathered.vValue ▸ List.filter_sublist
      have cent : 0 ≤ CENT := by decide
      have larger (coin : Coin) (lowest : found.coinLowestLarger = some coin) :
          Selected nTargetValue coins ([coin], coin.value) := by
        obtain ⟨member, bound⟩ := gathered.larger coin lowest
        exact .single member (by omega)
      refine Sat.ite (fun exactly => ?_) fun _ => Sat.ite (fun less => ?_) fun enough => ?_
      · have total : nTargetValue ≤ (found.vValue.map Coin.value).sum := gathered.total ▸ exactly.ge
        refine ((takeCoins_selected (distinct.sublist part) part.subset total).weaken_fault
          fun failure large => .of_not_small fun small => large ?_).bind chosen
        exact (summable small).part (part.map Coin.value)
      · cases lowest : found.coinLowestLarger with
        | none =>
            refine ⟨fun impossible => absurd impossible Bool.false_ne_true, fun _ small => ?_⟩
            -- every eligible coin is a candidate
            have all : found.vValue = coins := by
              rw [gathered.vValue, List.filter_eq_self]
              intro coin member
              have value := List.mem_map_of_mem (f := Coin.value) member
              have single := List.single_le_sum (summable small).nonneg coin.value value
              have upper := below small
              have never := gathered.noLarger lowest coin member
              exact decide_eq_true (by omega)
            rw [← (order.map Coin.value).sum_eq, ← all, ← gathered.total]
            exact less
        | some coin => exact chosen _ (larger coin lowest)
      · have sorted := chance.sort_perm found.vValue
        have values (small : SmallValues w nTargetValue nConfMine nConfTheirs vCoins) :
            Summable ((chance.sort found.vValue).map Coin.value) :=
          ((summable small).part (part.map Coin.value)).perm (sorted.map Coin.value)
        have total : found.nTotalLower = ((chance.sort found.vValue).map Coin.value).sum := by
          rw [gathered.total, (sorted.map Coin.value).sum_eq]
        rw [total] at enough ⊢
        refine ((approximateBestSubset_sat (Int.not_lt.mp enough) chance.random 1000).weaken_fault
          fun failure large => .of_not_small fun small => large (values small)).bind fun first firstBest => ?_
        refine ((addInt64_unless SmallValues.target).weaken_fault fun _ => .of_not_small).bind ?_
        rintro nLimit rfl
        refine Sat.bind (?_ : Sat _ (BestSubset ((chance.sort found.vValue).map Coin.value) nTargetValue) _)
          fun best subset => ?_
        · refine Sat.ite (fun more => ?_) fun _ => firstBest
          refine ((approximateBestSubset_sat more.2 chance.randomForChange 1000).weaken
            fun best subset => ⟨subset.length, subset.total, ?_⟩).weaken_fault
              fun failure large => .of_not_small fun small => large (values small)
          exact le_trans (by omega) subset.reached
        · simp only
          split
          · rename_i coin bigger
            exact chosen _ (larger coin (Option.eq_some_of_filter_eq_some bigger))
          · have inside : (masked (chance.sort found.vValue) best.1).Sublist (chance.sort found.vValue) :=
              masked_sublist _ _
            have subset_part : masked (chance.sort found.vValue) best.1 ⊆ coins :=
              fun coin member => part.subset (sorted.mem_iff.mp (inside.subset member))
            have once := (sorted.nodup_iff.mpr (distinct.sublist part)).sublist inside
            have reached : nTargetValue ≤ ((masked (chance.sort found.vValue) best.1).map Coin.value).sum := by
              rw [← masked_map, subset.total]
              exact subset.reached
            refine ((takeCoins_selected once subset_part reached).weaken_fault
              fun failure large => .of_not_small fun small => large ?_).bind chosen
            exact (values small).part (inside.map Coin.value)

/-- SelectCoinsMinConf finds coins exactly where the eligible ones reach the target, unless IsFromMe
throws; ApproximateBestSubset returns a mask whose total is `nBest` and reaches the target. -/
theorem selectCoinsMinConf_sound_complete {vCoins : List COutput} (available : Available vCoins)
    (small : SmallValues w nTargetValue nConfMine nConfTheirs vCoins) (chance : SelectionChance) :
    Sat (selectCoinsMinConf w nTargetValue nConfMine nConfTheirs chance vCoins)
      (Decides nTargetValue (eligibleCoins w nConfMine nConfTheirs vCoins)) (DebitFails w vCoins) ∧
    ∀ (vValue : List Int) (nTotalLower nTarget : Int) (random : Nat → Nat → Bool) (iterations : Nat),
      Summable vValue → vValue.sum = nTotalLower → nTarget ≤ nTotalLower →
        Sat (approximateBestSubset random vValue nTotalLower nTarget iterations) (BestSubset vValue nTarget)
          fun _ => False := by
  refine ⟨?_, ?_⟩
  · refine ((selectCoinsMinConf_sat available chance).weaken ?_).weaken_fault fun _ fails => fails small
    rintro ⟨fFound, taken⟩ ⟨sound, complete⟩
    cases fFound with
    | true =>
        exact .of_selected (available.eligible_nonneg w nConfMine nConfTheirs) (sound rfl)
    | false =>
        refine ⟨iff_of_false Bool.false_ne_true (Int.not_le.mpr (complete rfl small)), fun impossible => ?_⟩
        exact absurd impossible Bool.false_ne_true
  · intro vValue nTotalLower nTarget random iterations summable total enough
    rw [← total] at enough ⊢
    exact (approximateBestSubset_sat enough random iterations).weaken_fault fun _ large => large summable

end

namespace Sample

/-- An output of this value, three blocks deep. -/
def coinOf (hash : UInt256) (nValue : Int64) : COutput where
  hash
  tx := .ofTransaction ⟨1, [], [⟨nValue, []⟩], 0, []⟩
  i := 0
  inRange := Nat.one_pos
  nDepth := 3

def threeCoins : List COutput := [coinOf 1 1000, coinOf 2 2000, coinOf 3 5000]

/-- Every bit is set and equal values stay in their order. -/
def steady : SelectionChance where
  shuffle := id
  shuffle_perm := .refl
  sort vValue := vValue.mergeSort fun first second => second.value ≤ first.value
  sort_perm vValue := List.mergeSort_perm vValue _
  sort_falls vValue := by
    have sorted : (vValue.mergeSort fun first second => second.value ≤ first.value).Pairwise fun first second =>
        decide (second.value ≤ first.value) = true := List.pairwise_mergeSort (by grind) (by grind) vValue
    simpa using sorted
  random _ _ := true
  randomForChange _ _ := true

end Sample

open Sample in
theorem selectCoinsMinConf_sound_complete_three : ∃ result,
    selectCoinsMinConf (walletWith fun _ => false) 3000 1 1 steady threeCoins = .ok result ∧
      Decides 3000 (eligibleCoins (walletWith fun _ => false) 1 1 threeCoins) result := by
  have available : Available threeCoins := ⟨by decide, by decide⟩
  have small : SmallValues (walletWith fun _ => false) 3000 1 1 threeCoins := ⟨by decide, by decide⟩
  obtain ⟨result, run⟩ := ok_of_isOk
    (show (selectCoinsMinConf (walletWith fun _ => false) 3000 1 1 steady threeCoins).isOk = true by decide)
  exact ⟨result, run, (selectCoinsMinConf_sound_complete available small steady).1.of_ok run⟩

end BitCrystal
