import BitCrystal.Money

namespace BitCrystal

open Data

/-! # No sum of values leaves the range of a signed 64-bit integer -/

def Failure.NotOverflow (reason : Failure) : Prop :=
  reason ≠ .overflow

open Failure (NotOverflow)

theorem addInt64_sat {a b : Int} (fits : int64Range (a + b)) :
    Sat (addInt64 a b) (fun sum => sum = a + b) NotOverflow := by
  simp [addInt64, fits, Sat]

theorem subInt64_sat {a b : Int} (fits : int64Range (a - b)) :
    Sat (subInt64 a b) (fun difference => difference = a - b) NotOverflow := by
  simp [subInt64, fits, Sat]

theorem dos_notOverflow (level : Nat) (reason : String) : NotOverflow (.dos level reason) :=
  Failure.noConfusion

theorem undefined_notOverflow (reason : String) : NotOverflow (.undefined reason) :=
  Failure.noConfusion

theorem exception_notOverflow (reason : String) : NotOverflow (.exception reason) :=
  Failure.noConfusion

theorem MAX_MONEY_eq : MAX_MONEY = 50000000000000 := by decide

/-! ## Context-free checks -/

namespace CTransaction

theorem checkTransaction_sat (tx : CTransaction) :
    Sat tx.checkTransaction (fun _ => tx.Checked) NotOverflow := by
  have outputs : Sat (tx.vout.foldlM checkOutput 0) (fun _ => True) NotOverflow := by
    refine (Sat.foldlM (fun sum _ => 0 ≤ sum ∧ sum ≤ MAX_MONEY) ?_ tx.vout 0 (by decide)).weaken
      fun _ _ => trivial
    intro sum txout rest bounds
    refine (Sat.require (dos_notOverflow _ _)).bind fun _ nonneg =>
      (Sat.require (dos_notOverflow _ _)).bind fun _ low =>
        (addInt64_sat ?_).bind fun total _ =>
          (Sat.require (dos_notOverflow _ _)).bind fun _ inRange => Sat.of_pure (moneyRange_iff.mp inRange)
    rw [MAX_MONEY_eq] at bounds low
    simp only [int64Range]
    omega
  have run : Sat tx.checkTransaction (fun _ => True) NotOverflow := by
    refine (Sat.require (dos_notOverflow _ _)).bind fun _ _ =>
      (Sat.require (dos_notOverflow _ _)).bind fun _ _ =>
        (Sat.require (dos_notOverflow _ _)).bind fun _ _ => outputs.bind fun _ _ =>
          (Sat.require (dos_notOverflow _ _)).bind fun _ _ => Sat.ite (fun _ => ?_) fun _ => ?_
    · exact (Sat.require (dos_notOverflow _ _)).weaken fun _ _ => trivial
    · exact (Sat.require (dos_notOverflow _ _)).weaken fun _ _ => trivial
  exact run.with_run.weaken fun _ passed => Checked.of_checkTransaction passed.1

theorem Checked.getValueOut_sat {tx : CTransaction} (checked : tx.Checked) :
    Sat tx.getValueOut (fun nValueOut => 0 ≤ nValueOut ∧ nValueOut ≤ MAX_MONEY) NotOverflow := by
  refine (Sat.foldlM (fun sum rest => (0 ≤ sum ∧ sum ≤ MAX_MONEY) ∧ ∀ txout ∈ rest, txout ∈ tx.vout) ?_
    tx.vout 0 ⟨by decide, fun _ member => member⟩).weaken fun _ kept => kept.1
  intro sum txout rest bounds
  have value := moneyRange_iff.mp (checked.money txout (bounds.2 txout List.mem_cons_self))
  refine (addInt64_sat ?_).bind fun total same =>
    (Sat.require (exception_notOverflow _)).bind fun _ inRange =>
      Sat.of_pure ⟨moneyRange_iff.mp inRange.2, fun other member => bounds.2 other (List.mem_cons_of_mem _ member)⟩
  have small := bounds.1
  rw [MAX_MONEY_eq] at value small
  simp only [int64Range]
  omega

end CTransaction

theorem CBlock.checkBlock_sat [Hashing] (settings : Settings) (block : CBlock)
    (fCheckPOW fCheckMerkleRoot : Bool) :
    Sat (block.checkBlock settings fCheckPOW fCheckMerkleRoot) (fun _ => block.Checked) NotOverflow := by
  have transactions : Sat (forM block.vtx CTransaction.checkTransaction) (fun _ => True) NotOverflow :=
    Sat.forM fun tx _ => tx.checkTransaction_sat.weaken fun _ _ => trivial
  have run : Sat (block.checkBlock settings fCheckPOW fCheckMerkleRoot) (fun _ => True) NotOverflow := by
    refine (Sat.require (dos_notOverflow _ _)).bind fun _ _ =>
      (Sat.require (dos_notOverflow _ _)).bind fun _ _ =>
        (Sat.require (dos_notOverflow _ _)).bind fun _ _ =>
          (Sat.require (dos_notOverflow _ _)).bind fun _ _ =>
            (Sat.require (dos_notOverflow _ _)).bind fun _ _ => transactions.bind fun _ _ =>
              (Sat.require (dos_notOverflow _ _)).bind fun _ _ =>
                (Sat.require (dos_notOverflow _ _)).bind fun _ _ => ?_
    exact (Sat.require (dos_notOverflow _ _)).weaken fun _ _ => trivial
  exact run.with_run.weaken fun _ passed => CBlock.Checked.of_checkBlock passed.1

/-! ## Inputs -/

/-- Every input has its output in the view, with a value in the money range. -/
def CoinsView.Provides (view : CoinsView) (inputs : List CTxIn) : Prop :=
  ∀ txin ∈ inputs, ∃ txout, view.output txin.prevout = some txout ∧ moneyRange txout.value

namespace CTransaction

theorem provides_of_haveInputs {tx : CTransaction} {view : CoinsView} (inRange : view.InRange)
    (notCoinBase : tx.isCoinBase = false) (available : tx.haveInputs view = true) :
    view.Provides tx.vin := by
  have present := haveInputs_iff.mp available
  simp only [spentInputs, notCoinBase, Bool.false_eq_true, if_false] at present
  intro txin member
  obtain ⟨txout, found⟩ := present txin member
  exact ⟨txout, found, inRange.output found⟩

/-- The number of inputs that fit into a block. -/
def MAX_INPUTS : Int := 24390

theorem getValueIn_sat {tx : CTransaction} {view : CoinsView} (provides : view.Provides tx.vin)
    (few : tx.vin.length ≤ MAX_INPUTS) :
    Sat (tx.getValueIn view)
      (fun nValueIn => 0 ≤ nValueIn ∧ nValueIn ≤ MAX_MONEY * tx.vin.length) NotOverflow := by
  refine Sat.ite (fun _ => ⟨by decide, ?_⟩) fun _ => ?_
  · rw [MAX_MONEY_eq]
    omega
  · refine (Sat.foldlM (fun sum rest => (0 ≤ sum ∧ sum + MAX_MONEY * rest.length ≤ MAX_MONEY * tx.vin.length) ∧
      view.Provides rest) ?_ tx.vin 0 ⟨by omega, provides⟩).weaken fun sum kept => ?_
    · rintro sum txin rest ⟨bounds, provided⟩
      obtain ⟨txout, found, inRange⟩ := provided txin List.mem_cons_self
      have value := moneyRange_iff.mp inRange
      simp only [MAX_MONEY_eq, MAX_INPUTS, List.length_cons] at bounds value few
      simp only [addValueIn, getOutputFor, found, expect, ok_bind]
      refine (addInt64_sat ?_).weaken fun total same => ⟨?_, ?_⟩
      · simp only [int64Range]
        omega
      · rw [MAX_MONEY_eq]
        omega
      · exact fun other member => provided other (List.mem_cons_of_mem _ member)
    · simpa using kept.1

theorem getP2SHSigOpCount_sat (tx : CTransaction) (view : CoinsView) :
    Sat (tx.getP2SHSigOpCount view) (fun _ => True) NotOverflow := by
  refine Sat.ite (fun _ => trivial) fun _ => Sat.foldlM (fun _ _ => True) ?_ tx.vin 0 trivial
  intro nSigOps txin rest _
  refine (Sat.expect (undefined_notOverflow _)).bind fun prevout _ => Sat.ite (fun _ => ?_) fun _ => ?_
  · exact Sat.of_pure trivial
  · exact Sat.of_pure trivial

theorem checkInput_sat {view : CoinsView} {nSpendHeight nValueIn : Int} {txin : CTxIn} {txout : CTxOut}
    (found : view.output txin.prevout = some txout) (value : moneyRange txout.value)
    (sum : 0 ≤ nValueIn ∧ nValueIn ≤ MAX_MONEY) :
    Sat (checkInput view nSpendHeight nValueIn txin) (fun next => 0 ≤ next ∧ next ≤ MAX_MONEY)
      NotOverflow := by
  obtain ⟨coins, entry, output⟩ := CoinsView.output_eq_some.mp found
  have place := (CCoins.output_eq_some.mp output).1
  have range := moneyRange_iff.mp value
  simp only [checkInput, entry, place, expect, ok_bind]
  refine (Sat.require (dos_notOverflow _ _)).bind fun _ _ => (addInt64_sat ?_).bind fun total _ =>
    (Sat.require (dos_notOverflow _ _)).bind fun _ inRange => Sat.of_pure (moneyRange_iff.mp inRange.2)
  rw [MAX_MONEY_eq] at range sum
  simp only [int64Range]
  omega

variable [ScriptMachine]

theorem checkInputs_sat {tx : CTransaction} {mapBlockIndex : BlockMap} {view : CoinsView}
    {fScriptChecks pvChecks : Bool} {flags : UInt32} (checked : tx.Checked)
    (provides : view.Provides tx.vin) :
    Sat (tx.checkInputs mapBlockIndex view fScriptChecks flags pvChecks) (fun _ => True) NotOverflow := by
  have scripts : Sat (tx.vin.zipIdx.mapM (tx.scriptCheck view flags)) (fun _ => True) NotOverflow :=
    Sat.mapM fun input _ => (Sat.expect (undefined_notOverflow _)).bind fun _ _ =>
      (Sat.expect (undefined_notOverflow _)).bind fun _ _ => Sat.of_pure trivial
  have inline : ∀ checks : List CScriptCheck, Sat (forM checks runScriptCheck) (fun _ => True) NotOverflow :=
    fun checks => Sat.forM fun check _ => Sat.ite (fun _ => trivial) fun _ =>
      Sat.ite (fun _ => dos_notOverflow _ _) fun _ => dos_notOverflow _ _
  refine Sat.ite (fun _ => trivial) fun _ => (Sat.require (dos_notOverflow _ _)).bind fun _ _ =>
    (Sat.expect (undefined_notOverflow _)).bind fun pindexBest _ => ?_
  have values : Sat (tx.vin.foldlM (checkInput view (pindexBest.nHeight + 1)) 0)
      (fun nValueIn => 0 ≤ nValueIn ∧ nValueIn ≤ MAX_MONEY) NotOverflow := by
    refine (Sat.foldlM (fun sum rest => (0 ≤ sum ∧ sum ≤ MAX_MONEY) ∧ view.Provides rest) ?_ tx.vin 0
      ⟨by decide, provides⟩).weaken fun _ kept => kept.1
    rintro sum txin rest ⟨bounds, provided⟩
    obtain ⟨txout, found, inRange⟩ := provided txin List.mem_cons_self
    exact (checkInput_sat found inRange bounds).weaken fun next kept =>
      ⟨kept, fun other member => provided other (List.mem_cons_of_mem _ member)⟩
  refine values.bind fun nValueIn valueIn => checked.getValueOut_sat.bind fun nValueOut valueOut =>
    (Sat.require (dos_notOverflow _ _)).bind fun _ _ => (subInt64_sat ?_).bind fun nTxFee _ =>
      (Sat.require (dos_notOverflow _ _)).bind fun _ _ =>
        (Sat.require (dos_notOverflow _ _)).bind fun _ _ =>
          Sat.ite (fun _ => scripts.bind fun checks _ => Sat.ite (fun _ => trivial) fun _ =>
            (inline checks).bind fun _ _ => trivial) fun _ => trivial
  rw [MAX_MONEY_eq] at valueIn valueOut
  simp only [int64Range]
  omega

omit [ScriptMachine] in
theorem updateCoins_sat (tx : CTransaction) (view : CoinsView) (nHeight : Int) (txhash : UInt256) :
    Sat (tx.updateCoins view nHeight txhash) (fun _ => True) NotOverflow := by
  have spends : ∀ inputs view, Sat (spendInputs inputs view) (fun _ => True) NotOverflow := by
    intro inputs
    induction inputs with
    | nil => exact fun _ => trivial
    | cons txin rest ih =>
        exact fun view => (Sat.expect (undefined_notOverflow _)).bind fun _ _ =>
          (Sat.expect (undefined_notOverflow _)).bind fun _ _ => (ih _).bind fun _ _ => trivial
  exact (spends _ _).bind fun _ _ => trivial

end CTransaction

/-! ## Blocks -/

def inputCount (txs : List CTransaction) : Nat :=
  (txs.map fun tx => tx.vin.length).sum

theorem CTransaction.vin_size (tx : CTransaction) : 41 * tx.vin.length ≤ tx.getSerializeSize := by
  have each : 41 * tx.vin.length ≤ (tx.vin.map CTxIn.getSerializeSize).sum := by
    induction tx.vin with
    | nil => simp
    | cons txin rest ih =>
        have positive := getSizeOfCompactSize_pos txin.scriptSig.length
        simp only [List.length_cons, List.map_cons, List.sum_cons, CTxIn.getSerializeSize]
        omega
  simp only [getSerializeSize]
  omega

theorem CBlock.Checked.inputCount_le [Hashing] {block : CBlock} (checked : block.Checked) :
    inputCount block.vtx ≤ CTransaction.MAX_INPUTS := by
  have size := checked.size_le
  have each : 41 * inputCount block.vtx ≤ (block.vtx.map CTransaction.getSerializeSize).sum := by
    induction block.vtx with
    | nil => simp [inputCount]
    | cons tx rest ih =>
        have first := tx.vin_size
        simp only [inputCount, List.map_cons, List.sum_cons] at ih ⊢
        omega
  simp only [getSerializeSize, MAX_BLOCK_SIZE] at size
  simp only [CTransaction.MAX_INPUTS]
  omega

section

variable [ScriptMachine] {settings : Settings} {mapBlockIndex : BlockMap} {pindex : CBlockIndex}

/-- The fees so far leave room for the inputs still to come. -/
structure ConnectState.Bounded (s : ConnectState) (rest : List CTransaction) : Prop where
  inRange : s.view.InRange
  checked : ∀ tx ∈ rest, tx.Checked
  nonneg : 0 ≤ s.nFees
  room : s.nFees + MAX_MONEY * inputCount rest ≤ MAX_MONEY * CTransaction.MAX_INPUTS

theorem connectInputs_sat {s : ConnectState} {tx : CTransaction} {rest : List CTransaction}
    (bounded : s.Bounded (tx :: rest)) (notCoinBase : tx.isCoinBase = false) :
    Sat (connectInputs settings mapBlockIndex pindex s tx)
      (fun next => next.nFees ≤ s.nFees + MAX_MONEY * tx.vin.length) NotOverflow := by
  have checked := bounded.checked tx List.mem_cons_self
  have room := bounded.room
  have nonneg := bounded.nonneg
  simp only [inputCount, List.map_cons, List.sum_cons, MAX_MONEY_eq, CTransaction.MAX_INPUTS] at room
  refine (Sat.require (dos_notOverflow _ _)).bind fun _ available => ?_
  have provides := CTransaction.provides_of_haveInputs bounded.inRange notCoinBase available
  have few : (tx.vin.length : Int) ≤ CTransaction.MAX_INPUTS := by
    simp only [CTransaction.MAX_INPUTS]
    omega
  have sigOps : Sat (if pindex.fStrictPayToScriptHash then tx.getP2SHSigOpCount s.view else .ok 0)
      (fun _ => True) NotOverflow :=
    Sat.ite (fun _ => tx.getP2SHSigOpCount_sat s.view) fun _ => trivial
  refine sigOps.bind fun _ _ => (Sat.require (dos_notOverflow _ _)).bind fun _ _ =>
    (CTransaction.getValueIn_sat provides few).bind fun nValueIn valueIn =>
      checked.getValueOut_sat.bind fun nValueOut valueOut =>
        (subInt64_sat ?_).bind fun nTxFee fee => (addInt64_sat ?_).bind fun nFees fees =>
          (CTransaction.checkInputs_sat checked provides).bind fun _ _ => Sat.of_pure ?_
  all_goals
    rw [MAX_MONEY_eq] at valueIn valueOut
    simp only [int64Range, MAX_MONEY_eq]
    omega

variable [Hashing]

theorem connectTransaction_sat {s : ConnectState} {tx : CTransaction} {rest : List CTransaction}
    (bounded : s.Bounded (tx :: rest)) :
    Sat (connectTransaction settings mapBlockIndex pindex s tx) (fun next => next.Bounded rest)
      NotOverflow := by
  have checked := bounded.checked tx List.mem_cons_self
  have fees : Sat (connectTransaction settings mapBlockIndex pindex s tx)
      (fun next => next.nFees ≤ s.nFees + MAX_MONEY * tx.vin.length) NotOverflow := by
    refine (Sat.require (dos_notOverflow _ _)).bind fun _ _ => ?_
    have inputs : Sat (if tx.isCoinBase then
        .ok { s with nSigOps := s.nSigOps + tx.getLegacySigOpCount }
        else connectInputs settings mapBlockIndex pindex
          { s with nSigOps := s.nSigOps + tx.getLegacySigOpCount } tx)
        (fun next => next.nFees ≤ s.nFees + MAX_MONEY * tx.vin.length) NotOverflow := by
      refine Sat.ite (fun _ => ?_) fun notCoinBase => ?_
      · show s.nFees ≤ _
        rw [MAX_MONEY_eq]
        omega
      · exact connectInputs_sat (s := { s with nSigOps := s.nSigOps + tx.getLegacySigOpCount })
          ⟨bounded.inRange, bounded.checked, bounded.nonneg, bounded.room⟩ (by simpa using notCoinBase)
    exact inputs.bind fun next bound =>
      (tx.updateCoins_sat next.view pindex.nHeight tx.getHash).bind fun _ _ => Sat.of_pure bound
  refine fees.with_run.weaken fun next passed => ?_
  have conserves := connectTransaction_conserves checked passed.1 bounded.inRange
  have room := bounded.room
  have grown := passed.2
  refine ⟨conserves.inRange, fun other member => bounded.checked other (List.mem_cons_of_mem _ member),
    Int.le_trans bounded.nonneg conserves.fees, ?_⟩
  simp only [inputCount, List.map_cons, List.sum_cons, MAX_MONEY_eq] at room grown ⊢
  omega

/-- ConnectBlock never computes a sum out of range, whatever block it is given. -/
theorem connectBlock_sat (block : CBlock) {view : CoinsView} (inRange : view.InRange) (fJustCheck : Bool) :
    Sat (block.connectBlock settings mapBlockIndex pindex view fJustCheck) (fun _ => True) NotOverflow := by
  refine (block.checkBlock_sat settings _ _).bind fun _ checked =>
    (Sat.require (undefined_notOverflow _)).bind fun _ _ => Sat.ite (fun _ => trivial) fun _ => ?_
  have loop : Sat (block.vtx.foldlM (connectTransaction settings mapBlockIndex pindex) ⟨view, 0, 0, [], []⟩)
      (fun last => last.Bounded []) NotOverflow := by
    refine Sat.foldlM ConnectState.Bounded (fun s tx rest bounded => connectTransaction_sat bounded)
      block.vtx _ ⟨inRange, checked.transactions, Int.le_refl 0, ?_⟩
    have few := checked.inputCount_le
    rw [MAX_MONEY_eq]
    simp only
    omega
  have transactions : Sat (block.connectTransactions settings mapBlockIndex pindex view) (fun _ => True)
      NotOverflow := by
    refine (Sat.require (dos_notOverflow _ _)).bind fun _ _ => loop.bind fun last bounded =>
      (Sat.expect (undefined_notOverflow _)).bind fun coinbase first => ?_
    have member := checked.transactions coinbase (List.mem_of_head? first)
    have reward : Sat (getBlockValue pindex.nHeight last.nFees) (fun _ => True) NotOverflow := by
      obtain ⟨base, lower, upper, flat | fees⟩ := getBlockValue_cases pindex.nHeight
      · rw [flat]
        trivial
      · rw [fees]
        refine (addInt64_sat ?_).weaken fun _ _ => trivial
        have room := bounded.room
        have nonneg := bounded.nonneg
        simp only [inputCount, List.map_nil, List.sum_nil, MAX_MONEY_eq, CTransaction.MAX_INPUTS] at room
        simp only [nBlockRewardStartCoin, COIN] at upper
        simp only [int64Range]
        omega
    exact member.getValueOut_sat.bind fun _ _ => reward.bind fun _ _ =>
      (Sat.require (dos_notOverflow _ _)).bind fun _ _ =>
        (Sat.require (dos_notOverflow _ _)).bind fun _ _ => trivial
  exact transactions.bind fun _ _ => trivial

/-! ## Runs from the empty view -/

def CoinsView.empty : CoinsView := ⟨fun _ => none, none⟩

/-- `view` is what connecting `count` blocks, at heights 0 to `count - 1`, makes of the empty view. -/
inductive ConnectRun : Nat → CoinsView → Prop where
  | start : ConnectRun 0 CoinsView.empty
  | step {count : Nat} {view connected : CoinsView} {settings : Settings} {mapBlockIndex : BlockMap}
      {block : CBlock} {pindex : CBlockIndex} {blockundo : Option CBlockUndo}
      (run : ConnectRun count view) (height : pindex.nHeight = count)
      (connect : block.connectBlock settings mapBlockIndex pindex view false = .ok (connected, blockundo)) :
      ConnectRun (count + 1) connected

def totalSubsidy (count : Nat) : Int :=
  ((List.range count).map subsidy).sum

theorem ConnectRun.inRange {count : Nat} {view : CoinsView} (run : ConnectRun count view) :
    view.InRange ∧ view.total ≤ totalSubsidy count := by
  induction run with
  | start =>
      constructor
      · intro txid coins found
        contradiction
      · simp [CoinsView.total, totalSubsidy, CoinsView.amounts, CoinsView.empty, ledgerTotal]
  | step run height connect ih =>
      obtain ⟨kept, total⟩ := connectBlock_total height connect ih.1
      refine ⟨kept, ?_⟩
      have before := ih.2
      simp only [totalSubsidy, List.range_succ, List.map_append, List.sum_append, List.map_singleton,
        List.sum_singleton] at before ⊢
      omega

/-- Connecting blocks from the empty view conserves money: the unspent outputs
never exceed the subsidies, the next block adds at most its own subsidy, and no
sum on the way leaves the range of a signed 64-bit integer. -/
theorem connectRun_conserves_money {count : Nat} {view : CoinsView} (run : ConnectRun count view) :
    view.total ≤ totalSubsidy count ∧ (∀ nHeight : Nat, getBlockValue nHeight 0 = .ok (subsidy nHeight)) ∧
      ∀ (settings : Settings) (mapBlockIndex : BlockMap) (block : CBlock) (pindex : CBlockIndex),
        pindex.nHeight = count →
          block.connectBlock settings mapBlockIndex pindex view false ≠ .error .overflow ∧
          ∀ connected blockundo,
            block.connectBlock settings mapBlockIndex pindex view false = .ok (connected, blockundo) →
              connected.total ≤ view.total + subsidy count := by
  obtain ⟨inRange, total⟩ := run.inRange
  refine ⟨total, getBlockValue_subsidy, fun settings mapBlockIndex block pindex height => ⟨?_, ?_⟩⟩
  · intro overflows
    exact (connectBlock_sat block inRange false).of_error overflows rfl
  · intro connected blockundo connect
    exact (connectBlock_total height connect inRange).2

end

open Sample in
theorem connectRun_conserves_money_sample : ∃ view : CoinsView,
    ConnectRun 2 view ∧ view.total ≤ totalSubsidy 2 := by
  have both : (((block 4 [coinbase]).connectBlock settings blocks { index 4 with pprev := none }
      CoinsView.empty false).bind fun first => connect 5 [coinbase] first.1).isOk = true := by
    decide +kernel
  cases first : (block 4 [coinbase]).connectBlock settings blocks { index 4 with pprev := none }
      CoinsView.empty false with
  | error reason =>
      rw [first] at both
      contradiction
  | ok result =>
      rw [first] at both
      simp only [Except.bind] at both
      obtain ⟨⟨second, undo⟩, run⟩ := ok_of_isOk both
      have two := (ConnectRun.start.step (by decide) first).step (by decide) run
      exact ⟨second, two, (connectRun_conserves_money two).1⟩

end BitCrystal
