import BitCrystal.Overwrite
import BitCrystal.Data.Ledger

namespace BitCrystal

open Data

/-! # Connecting blocks creates no money beyond the subsidies -/

/-! ## The value of the unspent outputs -/

def CTxOut.unspentValue (txout : CTxOut) : Int :=
  if txout.isNull then 0 else txout.value

namespace CCoins

def amount (coins : CCoins) : Int :=
  (coins.vout.map CTxOut.unspentValue).sum

private theorem sum_rdropWhile (vout : List CTxOut) :
    ((vout.rdropWhile CTxOut.isNull).map CTxOut.unspentValue).sum =
      (vout.map CTxOut.unspentValue).sum := by
  induction vout using List.reverseRecOn with
  | nil => rfl
  | append_singleton front last ih =>
      rw [List.rdropWhile_concat]
      split
      · rename_i dropped
        simp [ih, CTxOut.unspentValue, dropped]
      · rfl

theorem amount_spend {coins spent : CCoins} {nPos : Nat} {undo : CTxInUndo}
    (spend : coins.spend nPos = some (spent, undo)) :
    spent.amount = coins.amount - undo.txout.value := by
  obtain ⟨found, unspent⟩ := output_eq_some.mp (spend_eq_some spend).txout
  obtain ⟨within, place⟩ := List.getElem?_eq_some_iff.mp found
  have after : spent.amount = ((coins.vout.set nPos CTxOut.null).map CTxOut.unspentValue).sum := by
    simp only [CCoins.spend, (spend_eq_some spend).txout, Option.some.injEq, Prod.mk.injEq] at spend
    rw [← spend.1]
    exact sum_rdropWhile _
  have nothing : CTxOut.unspentValue CTxOut.null = 0 := rfl
  rw [after, List.map_set, List.sum_set', dif_pos (by simpa using within), nothing, List.getElem_map, place,
    CTxOut.unspentValue, unspent]
  simp [amount, Int.sub_eq_add_neg]

def InRange (coins : CCoins) : Prop :=
  ∀ nPos txout, coins.output nPos = some txout → moneyRange txout.value

theorem InRange.amount_nonneg {coins : CCoins} (inRange : coins.InRange) : 0 ≤ coins.amount := by
  apply List.sum_nonneg
  intro value member
  obtain ⟨txout, inVout, rfl⟩ := List.mem_map.mp member
  cases isNull : txout.isNull with
  | true => simp [CTxOut.unspentValue, isNull]
  | false =>
      obtain ⟨nPos, found⟩ := List.mem_iff_getElem?.mp inVout
      simp only [CTxOut.unspentValue, isNull, Bool.false_eq_true, if_false]
      exact (moneyRange_iff.mp (inRange nPos txout (output_eq_some.mpr ⟨found, isNull⟩))).1

end CCoins

namespace CTransaction

def outputValue (tx : CTransaction) : Int :=
  (tx.vout.map CTxOut.value).sum

theorem Storable.amount {tx : CTransaction} (storable : tx.Storable) (nHeight : Int) :
    (CCoins.ofTransaction tx nHeight).amount = tx.outputValue := by
  have same : tx.vout.map CTxOut.unspentValue = tx.vout.map CTxOut.value := by
    apply List.map_congr_left
    intro txout member
    simp [CTxOut.unspentValue, (storable.outputs txout member).not_isNull]
  rw [CCoins.amount, outputValue, CCoins.ofTransaction, same]

theorem Storable.inRange {tx : CTransaction} (storable : tx.Storable) (nHeight : Int) :
    (CCoins.ofTransaction tx nHeight).InRange := by
  intro nPos txout found
  rw [storable.output] at found
  exact (storable.outputs txout (List.mem_of_getElem? found)).money

end CTransaction

namespace CoinsView

def amounts (view : CoinsView) (txid : UInt256) : Int :=
  ((view.coins txid).map CCoins.amount).getD 0

/-- The total value of all unspent outputs. -/
noncomputable def total (view : CoinsView) : Int :=
  ledgerTotal view.amounts

theorem amounts_setCoins (view : CoinsView) (txid : UInt256) (coins : CCoins) :
    (view.setCoins txid coins).amounts = Function.update view.amounts txid coins.amount := by
  funext other
  by_cases same : other = txid
  · subst same
    simp [amounts]
  · simp [amounts, setCoins_other view coins same, same]

theorem total_setCoins (view : CoinsView) (txid : UInt256) (coins : CCoins) :
    (view.setCoins txid coins).total = view.total - view.amounts txid + coins.amount := by
  rw [total, amounts_setCoins, ledgerTotal_update]
  rfl

def InRange (view : CoinsView) : Prop :=
  view.Each CCoins.InRange

theorem InRange.amounts_nonneg {view : CoinsView} (inRange : view.InRange) (txid : UInt256) :
    0 ≤ view.amounts txid := by
  cases found : view.coins txid with
  | none => simp [amounts, found]
  | some coins => simpa [amounts, found] using (inRange txid coins found).amount_nonneg

theorem InRange.output {view : CoinsView} (inRange : view.InRange) {outpoint : COutPoint}
    {txout : CTxOut} (found : view.output outpoint = some txout) : moneyRange txout.value := by
  obtain ⟨coins, entry, present⟩ := output_eq_some.mp found
  exact inRange outpoint.hash coins entry _ _ present

def inputValue (view : CoinsView) (inputs : List CTxIn) : Int :=
  (inputs.map fun txin => ((view.output txin.prevout).map CTxOut.value).getD 0).sum

end CoinsView

/-! ## One transaction -/

namespace CTransaction

theorem spendInputs_inRange {inputs : List CTxIn} {before after : CoinsView} {undos : CTxUndo}
    (run : spendInputs inputs before = .ok (after, undos)) (inRange : before.InRange) :
    after.InRange := by
  induction inputs generalizing before undos with
  | nil =>
      cases run
      exact inRange
  | cons txin rest ih =>
      obtain ⟨coins, spent, undo, vprevout, found, step, remaining, rfl⟩ := spendInputs_cons_eq_ok.mp run
      apply ih remaining
      apply CoinsView.Each.setCoins inRange
      intro nPos txout present
      rw [(CCoins.spend_eq_some step).output] at present
      split at present
      · contradiction
      · exact inRange _ coins found nPos txout present

theorem spendInputs_total {inputs : List CTxIn} {before after : CoinsView} {undos : CTxUndo}
    (run : spendInputs inputs before = .ok (after, undos))
    (distinct : (inputs.map CTxIn.prevout).Nodup) :
    after.total = before.total - before.inputValue inputs := by
  induction inputs generalizing before undos with
  | nil =>
      cases run
      simp [CoinsView.inputValue]
  | cons txin rest ih =>
      obtain ⟨coins, spent, undo, vprevout, found, step, remaining, rfl⟩ := spendInputs_cons_eq_ok.mp run
      rw [List.map_cons, List.nodup_cons] at distinct
      have spends := CCoins.spend_eq_some step
      have first : before.output txin.prevout = some undo.txout :=
        CoinsView.output_eq_some.mpr ⟨coins, found, spends.txout⟩
      have others : (before.setCoins txin.prevout.hash spent).inputValue rest = before.inputValue rest := by
        simp only [CoinsView.inputValue]
        congr 1
        apply List.map_congr_left
        intro other member
        have single := spendInputs_outputAt (spendInputs_single found step) other.prevout.place
        rw [CoinsView.output, single, if_neg, CoinsView.output]
        intro same
        rw [List.map_singleton, List.mem_singleton] at same
        exact distinct.1 (COutPoint.place_injective same ▸ List.mem_map_of_mem member)
      rw [ih remaining distinct.2, others, CoinsView.total_setCoins, CCoins.amount_spend step]
      simp only [CoinsView.inputValue, List.map_cons, List.sum_cons, first, Option.map_some, Option.getD_some,
        CoinsView.amounts, found]
      omega

theorem getValueIn_eq {tx : CTransaction} {view : CoinsView} {nValueIn : Int}
    (notCoinBase : tx.isCoinBase = false) (run : tx.getValueIn view = .ok nValueIn) :
    nValueIn = view.inputValue tx.vin := by
  simp only [getValueIn, notCoinBase, Bool.false_eq_true, if_false] at run
  have sum := foldlM_relation (fun inputs before after => after = before + view.inputValue inputs)
    (by simp [CoinsView.inputValue]) (by
      intro txin rest before next last step ih
      simp only [addValueIn, getOutputFor, bind_eq_ok, expect_eq_ok, addInt64_eq_ok] at step
      obtain ⟨prev, found, _, rfl⟩ := step
      simp only [ih, CoinsView.inputValue, List.map_cons, List.sum_cons, found, Option.map_some, Option.getD_some]
      omega) run
  simpa using sum

theorem checkInputs_value [ScriptMachine] {tx : CTransaction} {mapBlockIndex : BlockMap}
    {view : CoinsView} {fScriptChecks pvChecks : Bool} {flags : UInt32} {checks : List CScriptCheck}
    (notCoinBase : tx.isCoinBase = false)
    (run : tx.checkInputs mapBlockIndex view fScriptChecks flags pvChecks = .ok checks) :
    tx.outputValue ≤ view.inputValue tx.vin := by
  simp only [checkInputs, notCoinBase, Bool.false_eq_true, if_false, bind_eq_ok, require_eq_ok,
    exists_const] at run
  obtain ⟨available, _, _, nValueIn, loop, nValueOut, valueOut, enough, _⟩ := run
  have present := haveInputs_iff.mp available
  simp only [spentInputs, notCoinBase, Bool.false_eq_true, if_false] at present
  have sum := foldlM_relation (fun inputs before after =>
      (∀ txin ∈ inputs, ∃ txout, view.output txin.prevout = some txout) →
        after = before + view.inputValue inputs)
    (by simp [CoinsView.inputValue]) (by
      intro txin rest before next last step ih available
      obtain ⟨txout, found⟩ := available txin List.mem_cons_self
      obtain ⟨coins, entry, output⟩ := CoinsView.output_eq_some.mp found
      have place := (CCoins.output_eq_some.mp output).1
      simp only [checkInput, bind_eq_ok, expect_eq_ok, require_eq_ok, addInt64_eq_ok, pure_eq_ok, entry,
        exists_const] at step
      obtain ⟨_, same, _, prev, inVout, _, ⟨_, rfl⟩, _, rfl⟩ := step
      cases same
      rw [place] at inVout
      cases inVout
      rw [ih fun other member => available other (List.mem_cons_of_mem _ member)]
      simp only [CoinsView.inputValue, List.map_cons, List.sum_cons, found, Option.map_some, Option.getD_some]
      omega) loop present
  rw [Int.zero_add] at sum
  rw [← sum, outputValue, ← getValueOut_eq valueOut]
  exact enough

end CTransaction

/-- The money facts about one turn of the loop of ConnectBlock. -/
structure ConnectState.Conserves (s next : ConnectState) (tx : CTransaction) : Prop where
  inRange : next.view.InRange
  fees : s.nFees ≤ next.nFees
  total : next.view.total + next.nFees ≤
    s.view.total + s.nFees + if tx.isCoinBase then tx.outputValue else 0

section

variable [ScriptMachine] {settings : Settings} {mapBlockIndex : BlockMap} {pindex : CBlockIndex}

theorem connectInputs_fees {s next : ConnectState} {tx : CTransaction}
    (notCoinBase : tx.isCoinBase = false)
    (run : connectInputs settings mapBlockIndex pindex s tx = .ok next) :
    next.nFees = s.nFees + (s.view.inputValue tx.vin - tx.outputValue) ∧
      tx.outputValue ≤ s.view.inputValue tx.vin := by
  simp only [connectInputs, bind_eq_ok, pure_eq_ok, subInt64_eq_ok, addInt64_eq_ok] at run
  obtain ⟨_, _, _, _, _, _, nValueIn, valueIn, nValueOut, valueOut, _, ⟨_, rfl⟩, _, ⟨_, rfl⟩, checks, inputs,
    rfl⟩ := run
  rw [CTransaction.getValueIn_eq notCoinBase valueIn, CTransaction.getValueOut_eq valueOut]
  exact ⟨rfl, CTransaction.checkInputs_value notCoinBase inputs⟩

variable [Hashing]

theorem connectTransaction_conserves {s next : ConnectState} {tx : CTransaction} (checked : tx.Checked)
    (run : connectTransaction settings mapBlockIndex pindex s tx = .ok next) (inRange : s.view.InRange) :
    s.Conserves next tx := by
  obtain ⟨spent, txundo, inputs, view, _⟩ := connectTransaction_applied run
  have storable := checked.storable
  have spentInRange := CTransaction.spendInputs_inRange inputs inRange
  have distinct : (tx.spentInputs.map CTxIn.prevout).Nodup := by
    simp only [CTransaction.spentInputs]
    split
    · exact List.nodup_nil
    · exact checked.inputs_nodup
  have spentTotal := CTransaction.spendInputs_total inputs distinct
  have replaced := spentInRange.amounts_nonneg tx.getHash
  have total : next.view.total ≤ s.view.total - s.view.inputValue tx.spentInputs + tx.outputValue := by
    rw [view, CoinsView.total_setCoins, storable.amount, spentTotal]
    omega
  have nextInRange : next.view.InRange := by
    rw [view]
    exact CoinsView.Each.setCoins spentInRange (storable.inRange _)
  simp only [connectTransaction, bind_eq_ok, pure_eq_ok, Prod.exists] at run
  obtain ⟨_, _, reached, checks, _, _, _, rfl⟩ := run
  cases coinBase : tx.isCoinBase with
  | true =>
      simp only [coinBase, if_true, Except.ok.injEq] at checks
      subst checks
      simp only [CTransaction.spentInputs, coinBase, if_true, CoinsView.inputValue, List.map_nil,
        List.sum_nil] at total
      exact ⟨nextInRange, Int.le_refl _, by simp only [coinBase, if_true]; omega⟩
  | false =>
      simp only [coinBase, Bool.false_eq_true, if_false] at checks
      obtain ⟨fees, enough⟩ := connectInputs_fees coinBase checks
      simp only [CTransaction.spentInputs, coinBase, Bool.false_eq_true, if_false] at total
      simp only at fees enough
      refine ⟨nextInRange, by simp only; omega, ?_⟩
      simp only [coinBase, Bool.false_eq_true, if_false]
      omega

theorem connectLoop_conserves {txs : List CTransaction} {s last : ConnectState}
    (checked : ∀ tx ∈ txs, tx.Checked)
    (run : txs.foldlM (connectTransaction settings mapBlockIndex pindex) s = .ok last)
    (inRange : s.view.InRange) :
    last.view.InRange ∧ s.nFees ≤ last.nFees ∧
      last.view.total + last.nFees ≤ s.view.total + s.nFees +
        ((txs.filter CTransaction.isCoinBase).map CTransaction.outputValue).sum := by
  induction txs generalizing s with
  | nil =>
      cases run
      simp [inRange]
  | cons tx rest ih =>
      obtain ⟨next, step, remaining⟩ := foldlM_cons_eq_ok.mp run
      have conserves := connectTransaction_conserves (checked tx List.mem_cons_self) step inRange
      obtain ⟨kept, fees, total⟩ := ih (fun other member => checked other (List.mem_cons_of_mem _ member))
        remaining conserves.inRange
      refine ⟨kept, Int.le_trans conserves.fees fees, ?_⟩
      have first := conserves.total
      cases coinBase : tx.isCoinBase with
      | true =>
          simp only [coinBase, if_true] at first
          simp only [List.filter_cons, coinBase, if_true, List.map_cons, List.sum_cons]
          omega
      | false =>
          simp only [coinBase, Bool.false_eq_true, if_false] at first
          simp only [List.filter_cons, coinBase, Bool.false_eq_true, if_false]
          omega

end

/-! ## The subsidy -/

/-- GetBlockValue of a block without fees. -/
def subsidy (nHeight : Nat) : Int :=
  ((getBlockValue nHeight 0).toOption).getD 0

theorem shiftRight64_range {value : Int} (nonneg : 0 ≤ value) (count : Int) :
    0 ≤ shiftRight64 value count ∧ shiftRight64 value count ≤ value := by
  obtain ⟨n, rfl⟩ := Int.eq_ofNat_of_zero_le nonneg
  have whole : shiftRight64 (n : Int) count = ((n >>> (count % 64).toNat : Nat) : Int) := rfl
  rw [whole]
  exact ⟨Int.natCast_nonneg _, Int.ofNat_le.mpr (Nat.shiftRight_le n (count % 64).toNat)⟩

theorem getBlockValue_cases (nHeight : Int) : ∃ base, 0 ≤ base ∧ base ≤ nBlockRewardStartCoin ∧
    ((∀ nFees, getBlockValue nHeight nFees = .ok base) ∨
      ∀ nFees, getBlockValue nHeight nFees = addInt64 base nFees) := by
  obtain ⟨startLower, startUpper⟩ := shiftRight64_range (show 0 ≤ nBlockRewardStartCoin by decide)
    (nHeight.tdiv 10)
  obtain ⟨lower, upper⟩ := shiftRight64_range (show 0 ≤ nBlockRewardLastCoin by decide)
    (nHeight.tdiv 1440)
  have small : nBlockRewardLastCoin ≤ nBlockRewardStartCoin := by decide
  simp only [getBlockValue]
  split
  · exact ⟨nGenesisBlockRewardCoin, by decide, by decide, .inl fun _ => rfl⟩
  · split
    · exact ⟨_, startLower, startUpper, .inl fun _ => rfl⟩
    · split
      · refine ⟨_, ?_, ?_, .inr fun _ => rfl⟩
        · split
          · decide
          · exact lower
        · split
          · decide
          · exact Int.le_trans upper small
      · exact ⟨nBlockRewardFreedomForAllLastCoin, by decide, by decide, .inr fun _ => rfl⟩

theorem getBlockValue_subsidy (nHeight : Nat) : getBlockValue nHeight 0 = .ok (subsidy nHeight) := by
  obtain ⟨base, lower, upper, flat | fees⟩ := getBlockValue_cases nHeight
  · rw [subsidy, flat 0]
    rfl
  · have value : getBlockValue nHeight 0 = .ok base := by
      rw [fees 0]
      simp only [nBlockRewardStartCoin, COIN] at upper
      exact addInt64_eq_ok.mpr ⟨by simp only [int64Range]; omega, Int.add_zero base⟩
    rw [subsidy, value]
    rfl

theorem subsidy_nonneg (nHeight : Nat) : 0 ≤ subsidy nHeight := by
  have free := getBlockValue_subsidy nHeight
  obtain ⟨base, lower, _, flat | fees⟩ := getBlockValue_cases nHeight
  · rw [flat] at free
    cases free
    exact lower
  · rw [fees] at free
    obtain ⟨_, value⟩ := addInt64_eq_ok.mp free
    omega

theorem getBlockValue_le {nHeight : Nat} {nFees nBlockValue : Int} (nonneg : 0 ≤ nFees)
    (run : getBlockValue nHeight nFees = .ok nBlockValue) : nBlockValue ≤ subsidy nHeight + nFees := by
  have free := getBlockValue_subsidy nHeight
  obtain ⟨base, lower, upper, flat | fees⟩ := getBlockValue_cases nHeight
  · rw [flat] at free run
    cases free
    cases run
    omega
  · rw [fees] at free run
    obtain ⟨_, value⟩ := addInt64_eq_ok.mp free
    obtain ⟨_, total⟩ := addInt64_eq_ok.mp run
    omega

/-! ## One block -/

theorem CBlock.Checked.coinBases [Hashing] {block : CBlock} (checked : block.Checked) {coinbase : CTransaction}
    (first : block.vtx.head? = some coinbase) : block.vtx.filter CTransaction.isCoinBase = [coinbase] := by
  have leads := checked.coinBaseFirst
  have others := checked.coinBaseOnly
  cases vtx : block.vtx with
  | nil => simp [vtx] at first
  | cons tx rest =>
      simp only [vtx, List.head?_cons, Option.some.injEq] at first
      subst first
      simp only [hasCoinBaseFirst, vtx] at leads
      have none : rest.filter CTransaction.isCoinBase = [] := by
        rw [List.filter_eq_nil_iff]
        intro other member
        simp [others other (by rw [vtx]; exact member)]
      rw [List.filter_cons, if_pos leads, none]

section

variable [Hashing] [ScriptMachine] {settings : Settings} {mapBlockIndex : BlockMap}
  {pindex : CBlockIndex} {block : CBlock} {view connected : CoinsView} {blockundo : Option CBlockUndo}

theorem connectBlock_total {nHeight : Nat} (height : pindex.nHeight = nHeight)
    (connect : block.connectBlock settings mapBlockIndex pindex view false = .ok (connected, blockundo))
    (inRange : view.InRange) : connected.InRange ∧ connected.total ≤ view.total + subsidy nHeight := by
  have positive := subsidy_nonneg nHeight
  rcases CBlock.connectBlock_cases connect with ⟨_, _, rfl⟩ | ⟨last, connects, _, rfl⟩
  · refine ⟨inRange, ?_⟩
    show view.total ≤ _
    omega
  · obtain ⟨coinbase, nValueOut, nBlockValue, first, valueOut, blockValue, reward⟩ := connects.reward
    obtain ⟨kept, fees, total⟩ := connectLoop_conserves connects.checked.transactions connects.loop inRange
    rw [connects.checked.coinBases first, List.map_singleton, List.sum_singleton] at total
    rw [height] at blockValue
    simp only at fees total
    have limit := getBlockValue_le fees blockValue
    have paid : coinbase.outputValue = nValueOut := (CTransaction.getValueOut_eq valueOut).symm
    refine ⟨kept, ?_⟩
    show last.view.total ≤ _
    omega

end

end BitCrystal
