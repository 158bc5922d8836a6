import BitCrystal.BlockPacking
import BitCrystal.ParallelChecks
import BitCrystal.Resurrection
import BitCrystal.StrictEncodings

namespace BitCrystal

open Data Relation

/-! # The test of a new block

CreateNewBlock lets ConnectBlock test the block that it has put together. -/

/-! ## The coinbase -/

namespace CBlockTemplate

/-- The scripts of the coinbase that CreateNewBlock makes. -/
structure PaysTo (template : CBlockTemplate) (pubkey : CPubKey) : Prop where
  scriptSig : template.scriptSig = [CScript.OP_0, CScript.OP_0]
  scriptPubKey : template.scriptPubKey = CScript.pushData pubkey.vchPubKey ++ [CScript.OP_CHECKSIG]
  short : pubkey.vchPubKey.length < 76

variable {template : CBlockTemplate} {pubkey : CPubKey}

@[simp] theorem coinbase_isCoinBase (template : CBlockTemplate) : template.coinbase.isCoinBase = true := rfl

theorem PaysTo.length (pays : template.PaysTo pubkey) :
    template.scriptPubKey.length = pubkey.vchPubKey.length + 2 := by
  rw [pays.scriptPubKey, CScript.pushData_of_short pays.short]
  simp

theorem PaysTo.getSerializeSize_le (pays : template.PaysTo pubkey) : template.coinbase.getSerializeSize ≤ 160 := by
  have short := pays.short
  have length := pays.length
  have own : getSizeOfCompactSize (pubkey.vchPubKey.length + 2) = 1 := by
    unfold getSizeOfCompactSize
    rw [if_pos (by omega)]
  have unnoted : ¬ CTransaction.TXCOMMENT_VERSION ≤ CTransaction.CURRENT_VERSION := by decide
  simp only [coinbase, CTransaction.getSerializeSize, List.map_singleton, List.sum_singleton,
    CTxIn.getSerializeSize, CTxOut.getSerializeSize, pays.scriptSig, length, own, unnoted, if_false, List.length_cons]
  have one : getSizeOfCompactSize 1 = 1 := rfl
  have two : getSizeOfCompactSize 2 = 1 := rfl
  simp only [List.length_nil, one, two]
  omega

theorem sigOpLoop_payTo {data : Bytes} (short : data.length < 76) (lastOpcode : UInt8) :
    CScript.sigOpLoop false (data.length + 2) lastOpcode (CScript.pushData data ++ [CScript.OP_CHECKSIG]) = 1 := by
  have size : (UInt8.ofNat data.length).toNat = data.length := by
    rw [UInt8.toNat_ofNat']
    omega
  have push : UInt8.ofNat data.length < CScript.OP_PUSHDATA1 := by
    rw [UInt8.lt_iff_toNat_lt, size]
    exact short
  have first : CScript.getOp (CScript.pushData data ++ [CScript.OP_CHECKSIG]) =
      some (UInt8.ofNat data.length, data, [CScript.OP_CHECKSIG]) := by
    rw [CScript.pushData_of_short short, List.cons_append, CScript.getOp, if_pos push, if_neg (by simp [size]), size,
      List.take_left, List.drop_left]
  have others : ∀ opcode : UInt8, CScript.OP_PUSHDATA1 ≤ opcode → UInt8.ofNat data.length ≠ opcode := by
    intro opcode high same
    rw [← same, UInt8.le_iff_toNat_le] at high
    rw [UInt8.lt_iff_toNat_lt] at push
    omega
  have last : CScript.sigOpLoop false (data.length + 1) (UInt8.ofNat data.length) [CScript.OP_CHECKSIG] = 1 := by
    have done : CScript.sigOpLoop false data.length CScript.OP_CHECKSIG [] = 0 := by
      cases data.length <;> rfl
    have checkSig : CScript.getOp [CScript.OP_CHECKSIG] = some (CScript.OP_CHECKSIG, [], []) := by decide
    simp [CScript.sigOpLoop, checkSig, done]
  rw [CScript.sigOpLoop, first]
  simp [last, others CScript.OP_CHECKSIG (by decide), others CScript.OP_CHECKSIGVERIFY (by decide),
    others CScript.OP_CHECKMULTISIG (by decide), others CScript.OP_CHECKMULTISIGVERIFY (by decide)]

theorem PaysTo.getLegacySigOpCount (pays : template.PaysTo pubkey) : template.coinbase.getLegacySigOpCount = 1 := by
  have script : template.scriptPubKey.getSigOpCount false = 1 := by
    rw [CScript.getSigOpCount, pays.length, pays.scriptPubKey]
    exact sigOpLoop_payTo pays.short _
  simp [CTransaction.getLegacySigOpCount, coinbase, pays.scriptSig, script]
  rfl

end CBlockTemplate

/-! ## Checking the scripts again -/

/-- Of the verification flags, scripts only see the one for strict encodings. -/
def StrictnessOnly [ScriptMachine] : Prop :=
  ∀ (stack : List Bytes) (script : CScript) (tx : CTransaction) (nIn : Nat) (flags other : UInt32) (nHashType : Int),
    flags &&& SCRIPT_VERIFY_STRICTENC = other &&& SCRIPT_VERIFY_STRICTENC →
    ScriptMachine.evalScript stack script tx nIn flags nHashType =
      ScriptMachine.evalScript stack script tx nIn other nHashType

/-- EvalScript with a CheckSig that knows the transaction, the input and the hash type -/
@[reducible] def interpreter [ScriptDigests] (checkSig : CTransaction → Nat → Int → SigCall → Bool)
    (solver : CScript → Option (txnouttype × List Bytes)) : ScriptMachine where
  evalScript stack script tx nIn flags nHashType :=
    ((evalScript ⟨flags, checkSig tx nIn nHashType⟩ stack.reverse script).result.map List.reverse).toOption
  solver := solver

theorem interpreter_strictnessOnly [ScriptDigests] (checkSig : CTransaction → Nat → Int → SigCall → Bool)
    (solver : CScript → Option (txnouttype × List Bytes)) : @StrictnessOnly (interpreter checkSig solver) := by
  intro stack script tx nIn flags other nHashType same
  have includes : Verifier.Includes (fun _ => True) ⟨flags, checkSig tx nIn nHashType⟩ ⟨other, checkSig tx nIn nHashType⟩ :=
    ⟨rfl, .inl (by rw [Verifier.fStrictEncodings, Verifier.fStrictEncodings, same])⟩
  have results := evalScript_mirrors includes stack.reverse script fun _ _ => trivial
  exact congrArg (fun result => (Except.map List.reverse result).toOption) results

def CScriptCheck.withFlags (flags : UInt32) (check : CScriptCheck) : CScriptCheck := { check with nFlags := flags }

section

variable [ScriptMachine] {flags : UInt32}

theorem CScriptCheck.run_again (machine : StrictnessOnly) (lax : flags &&& SCRIPT_VERIFY_STRICTENC = 0)
    {check : CScriptCheck} (rule : check.nFlags = SCRIPT_VERIFY_P2SH) (passes : check.run = true) :
    (check.withFlags flags).run = true := by
  have same : ∀ stack script tx nIn nHashType, ScriptMachine.evalScript stack script tx nIn flags nHashType =
      ScriptMachine.evalScript stack script tx nIn SCRIPT_VERIFY_P2SH nHashType :=
    fun stack script tx nIn nHashType => machine stack script tx nIn _ _ nHashType (by rw [lax]; decide)
  have ruled : SCRIPT_VERIFY_P2SH &&& SCRIPT_VERIFY_P2SH ≠ 0 := by decide
  simp only [CScriptCheck.run, CScriptCheck.withFlags, rule] at passes ⊢
  cases found : check.txTo.vin[check.nIn]? with
  | none => simp [found] at passes
  | some txin =>
      simp only [found, verifyScript, verifyRedeemScript, same] at passes ⊢
      cases first : ScriptMachine.evalScript [] txin.scriptSig check.txTo check.nIn SCRIPT_VERIFY_P2SH check.nHashType with
      | none => simp [first] at passes
      | some stackCopy =>
          cases second : ScriptMachine.evalScript stackCopy check.scriptPubKey check.txTo check.nIn SCRIPT_VERIFY_P2SH
              check.nHashType with
          | none => simp [first, second] at passes
          | some stack =>
              simp only [first, second, Bool.and_eq_true] at passes ⊢
              refine ⟨passes.1, ?_⟩
              split
              · rename_i applies
                rw [if_pos ⟨ruled, applies.2⟩] at passes
                exact passes.2
              · rfl

omit [ScriptMachine] in
theorem scriptChecks_again (flags : UInt32) {tx : CTransaction} {view : CoinsView} {inputs : List (CTxIn × Nat)}
    {checks : List CScriptCheck} (run : inputs.mapM (tx.scriptCheck view SCRIPT_VERIFY_P2SH) = .ok checks) :
    inputs.mapM (tx.scriptCheck view flags) = .ok (checks.map (CScriptCheck.withFlags flags)) ∧
      ∀ check ∈ checks, check.nFlags = SCRIPT_VERIFY_P2SH := by
  induction inputs generalizing checks with
  | nil =>
      cases run
      exact ⟨rfl, by simp⟩
  | cons input rest ih =>
      rw [List.mapM_cons] at run ⊢
      simp only [bind_eq_ok, pure_eq_ok] at run
      obtain ⟨check, first, others, remaining, rfl⟩ := run
      obtain ⟨again, rules⟩ := ih remaining
      simp only [CTransaction.scriptCheck, bind_eq_ok, expect_eq_ok, pure_eq_ok] at first
      obtain ⟨coins, found, prev, output, rfl⟩ := first
      refine ⟨?_, List.forall_mem_cons.mpr ⟨rfl, rules⟩⟩
      simp only [CTransaction.scriptCheck, found, output, expect, ok_bind, again]
      rfl

theorem CTransaction.checkInputs_again {tx : CTransaction} {mapBlockIndex : BlockMap} {view : CoinsView}
    {done : List CScriptCheck} (machine : StrictnessOnly) (lax : flags &&& SCRIPT_VERIFY_STRICTENC = 0)
    (run : tx.checkInputs mapBlockIndex view true SCRIPT_VERIFY_P2SH false = .ok done) (fScriptChecks pvChecks : Bool) :
    ∃ checks, tx.checkInputs mapBlockIndex view fScriptChecks flags pvChecks = .ok checks ∧
      ∀ check ∈ checks, check.run = true := by
  unfold checkInputs at run ⊢
  split at run
  · rename_i coinBase
    exact ⟨[], if_pos coinBase, by simp⟩
  · rename_i loose
    rw [if_neg loose]
    simp only [if_true, Bool.false_eq_true, if_false, bind_eq_ok, require_eq_ok, expect_eq_ok, exists_const] at run
    obtain ⟨available, pindexBest, best, nValueIn, valueIn, nValueOut, valueOut, enough, nTxFee, fee, nonneg, inRange,
      checks, scripts, _, passed, _⟩ := run
    obtain ⟨again, rules⟩ := scriptChecks_again flags scripts
    have passes : ∀ check ∈ checks.map (CScriptCheck.withFlags flags), check.run = true := by
      intro check member
      obtain ⟨old, inside, rfl⟩ := List.mem_map.mp member
      exact old.run_again machine lax (rules old inside) (forM_runScriptCheck.mp passed old inside)
    simp only [require_of available, best, expect, valueIn, valueOut, require_of enough, fee, require_of nonneg,
      require_of inRange, again, forM_runScriptCheck.mpr passes, ok_bind]
    cases fScriptChecks with
    | false => exact ⟨[], rfl, by simp⟩
    | true =>
        cases pvChecks with
        | false => exact ⟨[], rfl, by simp⟩
        | true => exact ⟨_, rfl, passes⟩

end

/-! ## The same transactions in ConnectBlock -/

/-- The views agree except on the coins of one transaction. -/
structure CoinsView.SameBut (txid : UInt256) (view other : CoinsView) : Prop where
  best : view.best = other.best
  coins : ∀ key, key ≠ txid → view.coins key = other.coins key

/-- Where ConnectBlock is when CreateNewBlock had this view and these totals. -/
structure ConnectState.Tracks [ScriptMachine] (txid : UInt256) (view : CoinsView) (nSigOps : Nat) (nFees : Int)
    (s : ConnectState) : Prop where
  same : view.SameBut txid s.view
  sigOps : s.nSigOps ≤ nSigOps
  fees : s.nFees = nFees
  checks : ∀ check ∈ s.vChecks, check.run = true

section

variable {txid : UInt256} {view other : CoinsView} {tx : CTransaction}

theorem CoinsView.SameBut.setCoins (same : view.SameBut txid other) (key : UInt256) (coins : CCoins) :
    (view.setCoins key coins).SameBut txid (other.setCoins key coins) := by
  refine ⟨same.best, fun at' different => ?_⟩
  simp only [CoinsView.setCoins, same.coins at' different]

theorem CoinsView.SameBut.spendInputs {inputs : List CTxIn} {after : CoinsView} {undos : CTxUndo}
    (same : view.SameBut txid other) (apart : ∀ txin ∈ inputs, txin.prevout.hash ≠ txid)
    (run : CTransaction.spendInputs inputs view = .ok (after, undos)) :
    ∃ after', CTransaction.spendInputs inputs other = .ok (after', undos) ∧ after.SameBut txid after' := by
  induction inputs generalizing view other undos with
  | nil =>
      cases run
      exact ⟨other, rfl, same⟩
  | cons txin rest ih =>
      obtain ⟨coins, spent, undo, vprevout, found, step, remaining, rfl⟩ :=
        CTransaction.spendInputs_cons_eq_ok.mp run
      obtain ⟨after', again, agree⟩ := ih (same.setCoins txin.prevout.hash spent)
        (fun input member => apart input (List.mem_cons_of_mem _ member)) remaining
      rw [same.coins _ (apart txin List.mem_cons_self)] at found
      exact ⟨after', CTransaction.spendInputs_cons_eq_ok.mpr ⟨coins, spent, undo, vprevout, found, step, again, rfl⟩,
        agree⟩

theorem CTransaction.getP2SHSigOpCount_congr (agrees : view.AgreesOn other tx.vin) :
    tx.getP2SHSigOpCount view = tx.getP2SHSigOpCount other := by
  unfold getP2SHSigOpCount
  split
  · rfl
  · apply foldlM_congr
    intro txin member total
    simp only [addP2SHSigOps, getOutputFor, agrees.output member]

variable [Hashing] [ScriptMachine] {context : MinerContext} {added : Addition} {pindex : CBlockIndex}
  {settings : Settings} {s : ConnectState} {nSigOps : Nat} {nFees total : Int}

theorem Adding.connects (adding : Adding context view tx added) (tracks : s.Tracks txid view nSigOps nFees)
    (loose : tx.isCoinBase = false) (bare : ∀ nPos, view.outputAt (txid, nPos) = none) (machine : StrictnessOnly)
    (height : pindex.nHeight = context.nHeight) (room : nSigOps + added.nTxSigOps ≤ MAX_BLOCK_SIGOPS)
    (sum : addInt64 nFees added.nTxFees = .ok total) :
    ∃ next, connectTransaction settings context.mapBlockIndex pindex s tx = .ok next ∧
      next.Tracks txid added.view (nSigOps + added.nTxSigOps) total := by
  have apart : ∀ txin ∈ tx.vin, txin.prevout.hash ≠ txid := by
    intro txin member own
    obtain ⟨txout, present⟩ := CTransaction.haveInputs_iff.mp adding.available txin
      (by simpa [CTransaction.spentInputs, loose] using member)
    rw [CoinsView.output, COutPoint.place, own, bare] at present
    contradiction
  have agrees : view.AgreesOn s.view tx.vin :=
    ⟨tracks.same.best, fun txin member => tracks.same.coins _ (apart txin member)⟩
  obtain ⟨nValueIn, nValueOut, valueIn, valueOut, fee⟩ := adding.fees
  obtain ⟨nP2SHSigOps, sigOps, count⟩ := adding.sigOps
  obtain ⟨done, inputs⟩ := adding.inputs
  obtain ⟨txundo, coins⟩ := adding.coins
  have lax : pindex.scriptFlags &&& SCRIPT_VERIFY_STRICTENC = 0 := by
    unfold CBlockIndex.scriptFlags
    split <;> decide
  obtain ⟨checks, scripts, passed⟩ := CTransaction.checkInputs_again machine lax inputs pindex.fScriptChecks
    (settings.nScriptCheckThreads ≠ 0)
  obtain ⟨spent, inputsSpent, viewEq⟩ := CTransaction.updateCoins_eq_ok.mp coins
  obtain ⟨spent', again, agree⟩ := tracks.same.spendInputs
    (by simpa [CTransaction.spentInputs, loose] using apart) inputsSpent
  have before := tracks.sigOps
  obtain ⟨n, counted, few⟩ : ∃ n, (if pindex.fStrictPayToScriptHash then tx.getP2SHSigOpCount s.view else .ok 0) =
      .ok n ∧ n ≤ nP2SHSigOps := by
    split
    · exact ⟨nP2SHSigOps, CTransaction.getP2SHSigOpCount_congr agrees ▸ sigOps, Nat.le_refl _⟩
    · exact ⟨0, rfl, Nat.zero_le _⟩
  rw [CTransaction.getValueIn_congr agrees] at valueIn
  rw [CTransaction.checkInputs_congr agrees] at scripts
  have available := adding.available
  rw [CTransaction.haveInputs_congr agrees] at available
  have legacy : s.nSigOps + tx.getLegacySigOpCount ≤ MAX_BLOCK_SIGOPS := by omega
  have all : s.nSigOps + tx.getLegacySigOpCount + n ≤ MAX_BLOCK_SIGOPS := by omega
  have update : tx.updateCoins s.view pindex.nHeight tx.getHash =
      .ok (spent'.setCoins tx.getHash (CCoins.ofTransaction tx pindex.nHeight), txundo) :=
    CTransaction.updateCoins_eq_ok.mpr ⟨spent', again, rfl⟩
  rw [← height] at viewEq
  refine ⟨⟨spent'.setCoins tx.getHash (CCoins.ofTransaction tx pindex.nHeight), total,
    s.nSigOps + tx.getLegacySigOpCount + n, s.vtxundo ++ [txundo], s.vChecks ++ checks⟩, ?_, ?_⟩
  · simp only [connectTransaction, connectInputs, loose, Bool.false_eq_true, if_false, require_of legacy, require_of available,
      counted, require_of all, valueIn, valueOut, fee, tracks.fees, sum, scripts, ok_bind, pure_bind, update]
    rfl
  · refine ⟨viewEq ▸ agree.setCoins _ _, ?_, rfl, ?_⟩
    · show s.nSigOps + tx.getLegacySigOpCount + n ≤ nSigOps + added.nTxSigOps
      omega
    · intro check member
      exact (List.mem_append.mp member).elim (tracks.checks check) (passed check)

theorem Packed.connects {entries : List (CTransaction × Addition)} (packed : Packed context entries view)
    (start : s.Tracks txid context.pcoinsTip nSigOps 0) (loose : ∀ entry ∈ entries, entry.1.isCoinBase = false)
    (bare : ∀ nPos, context.pcoinsTip.outputAt (txid, nPos) = none)
    (other : txid ∉ (entries.map Prod.fst).map CTransaction.getHash) (machine : StrictnessOnly)
    (height : pindex.nHeight = context.nHeight)
    (room : nSigOps + (entries.map fun entry => entry.2.nTxSigOps).sum ≤ MAX_BLOCK_SIGOPS)
    (fees : (entries.map fun entry => entry.2.nTxFees).foldlM addInt64 0 = .ok nFees) :
    ∃ last, (entries.map Prod.fst).foldlM (connectTransaction settings context.mapBlockIndex pindex) s = .ok last ∧
      last.Tracks txid view (nSigOps + (entries.map fun entry => entry.2.nTxSigOps).sum) nFees := by
  induction packed generalizing nFees with
  | nothing =>
      cases fees
      exact ⟨s, rfl, start⟩
  | @snoc entries view tx added packed adding ih =>
      simp only [List.map_append, List.map_singleton, List.sum_append, List.sum_singleton, List.mem_append,
        List.mem_singleton, not_or] at other room fees ⊢
      obtain ⟨before, first, sum⟩ := foldlM_append_eq_ok.mp fees
      obtain ⟨_, sum, same⟩ := foldlM_cons_eq_ok.mp sum
      cases same
      obtain ⟨between, run, tracks⟩ := ih (fun entry member => loose entry (List.mem_append_left _ member)) other.1
        (by omega) first
      have emptied : ∀ nPos, view.outputAt (txid, nPos) = none := by
        intro nPos
        by_contra present
        obtain ⟨txout, found⟩ := Option.ne_none_iff_exists'.mp present
        have before := (packed.dwindles other.1).output found
        rw [bare] at before
        contradiction
      obtain ⟨last, step, tracked⟩ := adding.connects tracks (loose (tx, added) (by simp)) emptied machine height
        (by omega) sum
      exact ⟨last, foldlM_append_eq_ok.mpr ⟨between, run, foldlM_cons_eq_ok.mpr ⟨last, step, rfl⟩⟩,
        Nat.add_assoc _ _ _ ▸ tracked⟩

end

/-! ## CheckBlock -/

theorem CTxMemPool.Reached.checkTransaction [Hashing] [ScriptMachine] {occurring : Set CTransaction}
    (collisionFree : CollisionFree occurring) {pool : CTxMemPool} (reached : Reached occurring pool)
    {hash : UInt256} {tx : CTransaction} (stored : pool.mapTx[hash]? = some tx) : tx.checkTransaction = .ok () := by
  induction reached with
  | empty => simp [CTxMemPool.empty] at stored
  | accept _ _ run ih =>
      have accepted := Accepted.of_accept run
      rw [accepted.next_eq, addUnchecked_mapTx] at stored
      split at stored
      · cases stored
        obtain ⟨_, checked, _⟩ := bind_eq_ok.mp run
        exact checked
      · exact ih stored
  | remove reached occurs run ih =>
      have sound := reached.sound collisionFree
      exact ih (((remove_sat sound.exact (sound.agrees collisionFree occurs) _).of_ok run).of_mem stored).2
  | removeConflicts reached _ run ih =>
      exact ih (((removeConflicts_sat (reached.sound collisionFree).exact _).of_ok run).of_mem stored).2

namespace CBlockTemplate

variable {template : CBlockTemplate} {pubkey : CPubKey}

theorem PaysTo.checkTransaction_iff (pays : template.PaysTo pubkey) :
    template.coinbase.checkTransaction = .ok () ↔ moneyRange template.nValue.toInt = true := by
  have size : template.coinbase.getSerializeSize ≤ MAX_BLOCK_SIZE :=
    Nat.le_trans pays.getSerializeSize_le (by decide)
  have script : 2 ≤ template.coinbase.coinBaseScriptSize ∧ template.coinbase.coinBaseScriptSize ≤ 100 := by
    simp [CTransaction.coinBaseScriptSize, coinbase, pays.scriptSig]
  simp only [CTransaction.checkTransaction, bind_eq_ok, require_eq_ok, exists_const, coinbase_isCoinBase, if_true]
  constructor
  · rintro ⟨_, _, _, total, outputs, _⟩
    exact (CTransaction.checkOutput_run outputs).2.1 ⟨template.nValue, template.scriptPubKey⟩ (List.mem_singleton_self _)
  · intro inRange
    have bounds := moneyRange_iff.mp inRange
    refine ⟨List.cons_ne_nil _ _, List.cons_ne_nil _ _, size, template.nValue.toInt, ?_, List.nodup_singleton _, script⟩
    have fits : int64Range (0 + template.nValue.toInt) := by
      rw [MAX_MONEY_eq] at bounds
      simp only [int64Range]
      omega
    refine foldlM_cons_eq_ok.mpr ⟨template.nValue.toInt, ?_, rfl⟩
    simp only [CTransaction.checkOutput, bind_eq_ok, require_eq_ok, addInt64_eq_ok, pure_eq_ok, exists_const]
    exact ⟨bounds.1, bounds.2, template.nValue.toInt, ⟨fits, Int.zero_add _⟩, inRange, rfl⟩

theorem forM_checkTransaction {txs : List CTransaction} :
    forM txs CTransaction.checkTransaction = .ok () ↔ ∀ tx ∈ txs, tx.checkTransaction = .ok () := by
  induction txs with
  | nil => simp [pure, Except.pure]
  | cons tx rest ih =>
      rw [List.forM_cons, List.forall_mem_cons, ← ih, bind_eq_ok]
      exact ⟨fun ⟨_, first, others⟩ => ⟨first, others⟩, fun both => ⟨(), both⟩⟩

/-- What ConnectBlock asks of a template that CreateNewBlock has not seen to. -/
structure Connectable [Hashing] (context : MinerContext) (template : CBlockTemplate) : Prop where
  time : template.block.getBlockTime ≤ context.settings.adjustedTime + 1 * 60 * 60
  value : moneyRange template.nValue.toInt = true
  unique : template.coinbase.getHash ∉ template.others.map CTransaction.getHash
  fresh : ∀ tx ∈ template.block.vtx, context.pcoinsTip.hasUnspent tx.getHash = false

end CBlockTemplate

/-! ## The verdict of ConnectBlock -/

section

variable [Hashing] [ScriptMachine] {occurring : Set CTransaction} {context : MinerContext} {pubkey : CPubKey}
  {template : CBlockTemplate} {entries : List (CTransaction × Addition)} {view : CoinsView} {nFees : Int}

theorem Assembled.paysTo (assembled : Assembled context pubkey template entries view nFees)
    (valid : pubkey.isValid = true) : template.PaysTo pubkey := by
  refine ⟨assembled.scriptSig, assembled.scriptPubKey, ?_⟩
  simp only [CPubKey.isValid, decide_eq_true_eq] at valid
  omega

theorem Assembled.loose (assembled : Assembled context pubkey template entries view nFees) :
    ∀ entry ∈ entries, entry.1.isCoinBase = false := by
  intro entry member
  have admitted := assembled.admitted entry.1 (assembled.others ▸ List.mem_map_of_mem member)
  simp only [MinerContext.admits, Bool.and_eq_true, Bool.not_eq_true'] at admitted
  exact admitted.1

theorem Assembled.getSerializeSize_le (assembled : Assembled context pubkey template entries view nFees)
    (valid : pubkey.isValid = true) (checked : ∀ tx ∈ template.others, tx.Checked) :
    template.block.getSerializeSize ≤ 1000 + (template.others.map CTransaction.nTxSize).sum := by
  have coinbase := (assembled.paysTo valid).getSerializeSize_le
  have same : template.others.map CTransaction.nTxSize = template.others.map CTransaction.getSerializeSize := by
    refine List.map_congr_left fun tx member => Nat.mod_eq_of_lt ?_
    exact Nat.lt_of_le_of_lt (checked tx member).size_le (by decide)
  have count : getSizeOfCompactSize template.block.vtx.length ≤ 9 := by
    unfold getSizeOfCompactSize
    split_ifs <;> omega
  rw [same]
  simp only [CBlock.getSerializeSize, CBlockTemplate.block, List.map_cons, List.sum_cons] at count ⊢
  omega

theorem Packed.getLegacySigOpCount_le (packed : Packed context entries view) :
    ((entries.map Prod.fst).map CTransaction.getLegacySigOpCount).sum ≤
      (entries.map fun entry => entry.2.nTxSigOps).sum := by
  induction packed with
  | nothing => simp
  | snoc packed adding ih =>
      obtain ⟨nP2SHSigOps, _, count⟩ := adding.sigOps
      simp only [List.map_append, List.sum_append, List.map_singleton, List.sum_singleton, count]
      omega

theorem Assembled.checkBlock_iff (assembled : Assembled context pubkey template entries view nFees)
    (valid : pubkey.isValid = true) (passed : ∀ tx ∈ template.others, tx.checkTransaction = .ok ()) :
    template.block.checkBlock context.settings false false = .ok () ↔
      template.block.getBlockTime ≤ context.settings.adjustedTime + 1 * 60 * 60 ∧
        moneyRange template.nValue.toInt = true ∧
        template.coinbase.getHash ∉ template.others.map CTransaction.getHash := by
  have pays := assembled.paysTo valid
  have real := assembled.getSerializeSize_le valid fun tx member => .of_checkTransaction (passed tx member)
  have size : template.block.getSerializeSize ≤ MAX_BLOCK_SIZE := by
    have most : context.miner.nBlockMaxSize ≤ MAX_BLOCK_SIZE - 1000 :=
      Nat.max_le.mpr ⟨by decide, Nat.min_le_left _ _⟩
    by_cases empty : template.others = []
    · rw [empty] at real
      exact Nat.le_trans real (by decide)
    · have limit := assembled.size empty
      omega
  have length : template.block.vtx.length ≤ MAX_BLOCK_SIZE := by
    have each := List.length_le_sum_of_one_le (template.block.vtx.map CTransaction.getSerializeSize) (by
      intro size member
      obtain ⟨tx, _, rfl⟩ := List.mem_map.mp member
      simp only [CTransaction.getSerializeSize]
      omega)
    rw [List.length_map] at each
    simp only [CBlock.getSerializeSize] at size
    omega
  have loose : template.others.all (fun tx => !tx.isCoinBase) = true := by
    rw [assembled.others, List.all_map]
    exact List.all_eq_true.mpr fun entry member => by simpa using assembled.loose entry member
  have sigOps : (template.block.vtx.map CTransaction.getLegacySigOpCount).sum ≤ MAX_BLOCK_SIGOPS := by
    have few := assembled.packed.getLegacySigOpCount_le
    have limit := assembled.sigOps
    rw [← assembled.others] at few
    simp only [CBlockTemplate.block, List.map_cons, List.sum_cons, pays.getLegacySigOpCount]
    omega
  have transactions : forM template.block.vtx CTransaction.checkTransaction = .ok () ↔
      moneyRange template.nValue.toInt = true := by
    rw [CBlockTemplate.forM_checkTransaction, ← pays.checkTransaction_iff]
    exact List.forall_mem_cons.trans (and_iff_left passed)
  have hashes : (template.block.vtx.map CTransaction.getHash).Nodup ↔
      template.coinbase.getHash ∉ template.others.map CTransaction.getHash :=
    List.nodup_cons.trans (and_iff_left assembled.distinct)
  simp only [CBlock.checkBlock, bind_eq_ok, require_eq_ok, exists_const, Bool.false_eq_true, false_implies, true_and,
    hashes]
  constructor
  · rintro ⟨_, time, _, _, _, passes, unique, _⟩
    exact ⟨time, transactions.mp passes, unique⟩
  · rintro ⟨time, value, unique⟩
    exact ⟨⟨List.cons_ne_nil _ _, length, size⟩, time, rfl, loose, (), transactions.mpr value, unique, sigOps, trivial⟩

theorem Assembled.reward (assembled : Assembled context pubkey template entries view nFees)
    (value : moneyRange template.nValue.toInt = true) :
    template.coinbase.getValueOut = .ok template.nValue.toInt ∧
      getBlockValue context.nHeight nFees = .ok template.nValue.toInt := by
  obtain ⟨nValue, reward, stored⟩ := assembled.value
  have range : int64Range nValue := by
    obtain ⟨base, lower, upper, flat | fees⟩ := getBlockValue_cases context.nHeight
    · obtain rfl := Except.ok.inj ((flat nFees).symm.trans reward)
      simp only [nBlockRewardStartCoin, COIN] at upper
      simp only [int64Range]
      omega
    · obtain ⟨fits, rfl⟩ := addInt64_eq_ok.mp ((fees nFees).symm.trans reward)
      exact fits
  have same : template.nValue.toInt = nValue := by
    rw [stored]
    exact Int64.toInt_ofInt_of_le range.1 range.2
  refine ⟨?_, same ▸ reward⟩
  have bounds := moneyRange_iff.mp value
  refine foldlM_cons_eq_ok.mpr ⟨template.nValue.toInt, ?_, rfl⟩
  simp only [CTransaction.addValueOut, bind_eq_ok, require_eq_ok, addInt64_eq_ok, pure_eq_ok, exists_const]
  have fits : int64Range (0 + template.nValue.toInt) := by
    rw [Int.zero_add, same]
    exact range
  exact ⟨template.nValue.toInt, ⟨fits, Int.zero_add _⟩, ⟨value, value⟩, rfl⟩

theorem CBlockTemplate.PaysTo.connects (pays : template.PaysTo pubkey) (settings : Settings)
    (mapBlockIndex : BlockMap) (pindex : CBlockIndex) (tip : CoinsView) :
    ∃ s, connectTransaction settings mapBlockIndex pindex ⟨tip, 0, 0, [], []⟩ template.coinbase = .ok s ∧
      s.Tracks template.coinbase.getHash tip 1 0 := by
  have coins : template.coinbase.updateCoins tip pindex.nHeight template.coinbase.getHash =
      .ok (tip.setCoins template.coinbase.getHash (CCoins.ofTransaction template.coinbase pindex.nHeight), []) := rfl
  have legacy : 0 + template.coinbase.getLegacySigOpCount ≤ MAX_BLOCK_SIGOPS := by
    rw [pays.getLegacySigOpCount]
    decide
  refine ⟨⟨tip.setCoins template.coinbase.getHash (CCoins.ofTransaction template.coinbase pindex.nHeight), 0,
    0 + template.coinbase.getLegacySigOpCount, [], []⟩, ?_, ?_⟩
  · simp only [connectTransaction, require_of legacy, CBlockTemplate.coinbase_isCoinBase, if_true, ok_bind, coins]
    rfl
  · refine ⟨⟨rfl, fun key different => ?_⟩, ?_, rfl, by simp⟩
    · rw [CoinsView.setCoins_other _ _ different]
    · simp [pays.getLegacySigOpCount]

theorem Assembled.connectBlock_iff (assembled : Assembled context pubkey template entries view nFees)
    (valid : pubkey.isValid = true) (passed : ∀ tx ∈ template.others, tx.checkTransaction = .ok ())
    (machine : StrictnessOnly) (synced : context.pcoinsTip.best = some context.pindexPrev.hash)
    (notGenesis : template.block.getHash ≠ hashGenesisBlock) :
    (∃ result, template.block.connectBlock context.settings context.mapBlockIndex (context.indexDummy template.header)
      context.pcoinsTip true = .ok result) ↔ template.Connectable context := by
  have checks := assembled.checkBlock_iff valid passed
  have pays := assembled.paysTo valid
  constructor
  · rintro ⟨⟨after, blockundo⟩, run⟩
    obtain ⟨_, checked, _⟩ := bind_eq_ok.mp run
    obtain ⟨time, value, unique⟩ := checks.mp checked
    rcases CBlock.connectBlock_cases run with ⟨genesis, _⟩ | ⟨s, connects, _⟩
    · exact absurd genesis notGenesis
    · exact ⟨time, value, unique, connects.fresh rfl⟩
  · intro connectable
    have bare := CoinsView.entry_eq_none_iff.mp (CoinsView.hasUnspent_eq_false_iff.mp
      (connectable.fresh template.coinbase List.mem_cons_self))
    have room : 1 + (entries.map fun entry => entry.2.nTxSigOps).sum ≤ MAX_BLOCK_SIGOPS := by
      have limit := assembled.sigOps
      omega
    have height : (context.indexDummy template.header).nHeight = context.nHeight := rfl
    obtain ⟨s, first, start⟩ := pays.connects context.settings context.mapBlockIndex
      (context.indexDummy template.header) context.pcoinsTip
    obtain ⟨last, run, tracks⟩ := assembled.packed.connects start assembled.loose bare (assembled.others ▸ connectable.unique)
      machine height room assembled.fees
    obtain ⟨valueOut, reward⟩ := assembled.reward connectable.value
    have fresh : (context.indexDummy template.header).phashBlock = none →
        template.block.vtx.all (fun tx => !context.pcoinsTip.hasUnspent tx.getHash) = true := by
      intro _
      simpa using connectable.fresh
    have scripts : last.vChecks.all CScriptCheck.run = true := List.all_eq_true.mpr tracks.checks
    have loop : template.block.vtx.foldlM (connectTransaction context.settings context.mapBlockIndex
        (context.indexDummy template.header)) ⟨context.pcoinsTip, 0, 0, [], []⟩ = .ok last :=
      foldlM_cons_eq_ok.mpr ⟨s, first, assembled.others ▸ run⟩
    have parent : (context.indexDummy template.header).pprev = context.pcoinsTip.best := synced.symm
    refine ⟨(last.view, some last.vtxundo), ?_⟩
    simp only [CBlock.connectBlock, bind_eq_ok, require_eq_ok, exists_const, if_neg notGenesis, if_true]
    refine ⟨(), checks.mpr ⟨connectable.time, connectable.value, connectable.unique⟩, parent, last, ?_, rfl⟩
    simp only [CBlock.connectTransactions, bind_eq_ok, require_eq_ok, expect_eq_ok, pure_eq_ok, exists_const]
    refine ⟨fresh, last, loop, template.coinbase, rfl, template.nValue.toInt, valueOut, template.nValue.toInt, ?_,
      Int.le_refl _, scripts, rfl⟩
    rw [tracks.fees]
    exact reward

/-! ## CreateNewBlock -/

variable [DoubleMath] [HeapLibrary]

theorem assembled_of_reached (collisionFree : CTxMemPool.CollisionFree occurring)
    (reached : context.mempool.Reached occurring) (run : newTemplate context pubkey = .ok template) :
    ∃ entries view nFees, Assembled context pubkey template entries view nFees ∧
      ∀ tx ∈ template.others, tx.checkTransaction = .ok () := by
  obtain ⟨entries, view, nFees, assembled⟩ :=
    newTemplate_assembled (reached.sound collisionFree).exact.keyed run
  exact ⟨entries, view, nFees, assembled, fun tx member => reached.checkTransaction collisionFree (assembled.stored tx member)⟩

/-- Of all that ConnectBlock tests, four things can turn a template down that CreateNewBlock has put together: the time
of the tip, the reward, a coinbase with the hash of another transaction, and outputs that would be overwritten. -/
theorem createNewBlock_iff (collisionFree : CTxMemPool.CollisionFree occurring)
    (reached : context.mempool.Reached occurring) (valid : pubkey.isValid = true) (machine : StrictnessOnly)
    (synced : context.pcoinsTip.best = some context.pindexPrev.hash) (run : newTemplate context pubkey = .ok template)
    (notGenesis : template.block.getHash ≠ hashGenesisBlock) :
    CTxMemPool.createNewBlock context pubkey = .ok template ↔ template.Connectable context := by
  obtain ⟨entries, view, nFees, assembled, passed⟩ := assembled_of_reached collisionFree reached run
  rw [← assembled.connectBlock_iff valid passed machine synced notGenesis, CTxMemPool.createNewBlock, run, ok_bind]
  cases template.block.connectBlock context.settings context.mapBlockIndex (context.indexDummy template.header)
      context.pcoinsTip true with
  | ok result => exact ⟨fun _ => ⟨result, rfl⟩, fun _ => rfl⟩
  | error reason =>
      refine ⟨fun made => ?_, fun ⟨_, connects⟩ => by cases connects⟩
      simp only at made
      split at made <;> cases made

/-- What is behind the coinbase: transactions of the pool under different hashes, each after those that it spends, each
tested on the view that the ones before it leave, within the limits on size and signature operations and with all fees
in the reward. -/
theorem newTemplate_sound (collisionFree : CTxMemPool.CollisionFree occurring)
    (reached : context.mempool.Reached occurring) (valid : pubkey.isValid = true)
    (run : newTemplate context pubkey = .ok template) :
    (∃ entries view nFees, Assembled context pubkey template entries view nFees) ∧
      (∀ pre tx post, template.others = pre ++ tx :: post →
        ∀ txin ∈ tx.vin, Supplied context pre txin.prevout.hash) ∧
      (template.others ≠ [] → template.block.getSerializeSize < context.miner.nBlockMaxSize) := by
  obtain ⟨entries, view, nFees, assembled, passed⟩ := assembled_of_reached collisionFree reached run
  have real := assembled.getSerializeSize_le valid fun tx member => .of_checkTransaction (passed tx member)
  refine ⟨⟨entries, view, nFees, assembled⟩, fun pre tx post order => ?_,
    fun some => Nat.lt_of_le_of_lt real (assembled.size some)⟩
  exact assembled.packed.ordered assembled.loose (assembled.others ▸ order)

end

namespace Sample

/-- Fractions in the place of `double`. -/
scoped instance fractions : DoubleMath where
  Double := Rat
  ofInt n := n
  add := (· + ·)
  mul := (· * ·)
  div := (· / ·)
  lt a b := a < b
  eq a b := a = b

/-- Vectors with the greatest value in front are heaps. -/
scoped instance sortedHeaps : HeapLibrary where
  makeHeap less values := values.insertionSort fun a b => less b a
  pushHeap less values := values.insertionSort fun a b => less b a
  popHeap less values := (values.drop 1).insertionSort (fun a b => less b a) ++ values.take 1
  makeHeap_perm _ values := values.perm_insertionSort _
  pushHeap_perm _ values := values.perm_insertionSort _
  popHeap_front _ _ rest := ⟨_, rfl, rest.perm_insertionSort _⟩

theorem strictnessOnly : StrictnessOnly := fun _ _ _ _ _ _ _ _ => rfl

/-- One transaction in the pool, on top of the block with nonce 5. -/
def templateContext : MinerContext where
  settings := settings
  miner := ⟨250000, 27000, 100000, false⟩
  mapBlockIndex := blocks
  pcoinsTip := fundedView
  mempool := CTxMemPool.empty.addUnchecked payment.getHash payment
  pindexPrev := ⟨5, index 5, [index 4]⟩
  nBestHeight := 1

def minerKey : CPubKey := ⟨List.replicate 33 2⟩

theorem payment_collisionFree : CTxMemPool.CollisionFree {payment} := by
  rintro left rfl right rfl _
  rfl

theorem templateContext_reached : templateContext.mempool.Reached {payment} := by
  obtain ⟨pool, run⟩ := ok_of_isOk (show (CTxMemPool.empty.accept context payment true true).isOk = true by decide +kernel)
  have pooled := (CTxMemPool.Accepted.of_accept run).next_eq
  have reached := CTxMemPool.Reached.empty.accept (Set.mem_singleton payment) run
  rw [pooled] at reached
  exact reached

theorem newTemplate_made : (newTemplate templateContext minerKey).isOk = true := by
  decide +kernel

end Sample

open Sample

/-- A template with the transaction of the pool. -/
theorem createNewBlock_iff_sample : ∃ template, template.others = [payment] ∧
    CTxMemPool.createNewBlock templateContext minerKey = .ok template ∧ template.Connectable templateContext := by
  have made : (CTxMemPool.createNewBlock templateContext minerKey).toOption.any (fun template =>
      template.others = [payment] && template.block.getHash ≠ hashGenesisBlock) = true := by decide +kernel
  cases run : CTxMemPool.createNewBlock templateContext minerKey with
  | error reason => simp [run, Except.toOption] at made
  | ok template =>
      simp only [run, Except.toOption, Option.any_some, Bool.and_eq_true, decide_eq_true_eq] at made
      obtain ⟨other, assembled, rest⟩ := bind_eq_ok.mp run
      have same : other = template := by
        split at rest
        · exact Except.ok.inj rest
        · split at rest <;> cases rest
      subst same
      exact ⟨other, made.1, rfl, (createNewBlock_iff payment_collisionFree templateContext_reached (by decide)
        strictnessOnly rfl assembled made.2).mp run⟩

theorem newTemplate_sound_sample : ∃ template, newTemplate templateContext minerKey = .ok template ∧
    ∃ entries view nFees, Assembled templateContext minerKey template entries view nFees := by
  obtain ⟨template, run⟩ := ok_of_isOk newTemplate_made
  exact ⟨template, run, (newTemplate_sound payment_collisionFree templateContext_reached (by decide) run).1⟩

end BitCrystal
