import BitCrystal.Entries
import Mathlib.Algebra.BigOperators.Group.List.Basic
import Mathlib.Algebra.Order.BigOperators.Group.List

namespace BitCrystal

open Data

/-! # What connecting the transactions of a block does to the coins -/

/-- The outputs of a transaction can be stored and there is a bounded number of them. -/
structure CTransaction.Storable (tx : CTransaction) : Prop where
  outputs : ∀ txout ∈ tx.vout, txout.Storable
  size : tx.vout.length ≤ MAX_BLOCK_SIZE

namespace CTransaction

theorem Checked.storable {tx : CTransaction} (checked : tx.Checked) : tx.Storable := by
  have size := checked.size_le
  simp only [getSerializeSize] at size
  constructor
  · intro txout member
    refine ⟨checked.money txout member, ?_⟩
    have part := List.le_sum_of_mem (List.mem_map_of_mem (f := CTxOut.getSerializeSize) member)
    simp only [CTxOut.getSerializeSize] at part size
    omega
  · have each := List.length_le_sum_of_one_le (tx.vout.map CTxOut.getSerializeSize) (by
      intro size member
      obtain ⟨txout, _, rfl⟩ := List.mem_map.mp member
      simp only [CTxOut.getSerializeSize]
      omega)
    rw [List.length_map] at each
    omega

theorem Checked.vin_length_le {tx : CTransaction} (checked : tx.Checked) :
    tx.vin.length ≤ MAX_BLOCK_SIZE := by
  have size := checked.size_le
  have each := List.length_le_sum_of_one_le (tx.vin.map CTxIn.getSerializeSize) (by
    intro size member
    obtain ⟨txin, _, rfl⟩ := List.mem_map.mp member
    simp only [CTxIn.getSerializeSize]
    omega)
  rw [List.length_map] at each
  simp only [getSerializeSize] at size
  omega

theorem Storable.output {tx : CTransaction} (storable : tx.Storable) (nHeight : Int) (nPos : Nat) :
    (CCoins.ofTransaction tx nHeight).output nPos = tx.vout[nPos]? :=
  CCoins.output_ofTransaction nHeight (fun txout member => (storable.outputs txout member).not_isNull) nPos

theorem Storable.coins {tx : CTransaction} (storable : tx.Storable) {nHeight : Int}
    (height : 0 < nHeight ∧ nHeight < 2 ^ 31) :
    (CCoins.ofTransaction tx nHeight).Storable ∧ (CCoins.ofTransaction tx nHeight).nHeight ≠ 0 := by
  refine ⟨⟨?_, ⟨Int.le_of_lt height.1, height.2⟩, storable.size⟩, Int.ne_of_gt height.1⟩
  intro nPos txout found
  rw [storable.output] at found
  exact storable.outputs txout (List.mem_of_getElem? found)

end CTransaction

theorem CCoins.Spends.undo_storable {before after : CCoins} {nPos : Nat} {undo : CTxInUndo}
    (spends : Spends before nPos after undo) (storable : before.Storable)
    (height : before.nHeight ≠ 0) : undo.Storable := by
  have txout := storable.outputs nPos undo.txout spends.txout
  cases pruned : after.isPruned with
  | true =>
      obtain ⟨_, same, _⟩ := spends.last pruned
      exact ⟨txout, same ▸ storable.height, fun zero => absurd (same.symm.trans zero) height⟩
  | false =>
      obtain ⟨height, version⟩ := spends.notLast pruned
      exact ⟨txout, by rw [height]; decide, fun _ => version⟩

namespace CTransaction

/-! ## Spending the inputs -/

theorem spendInputs_single {txin : CTxIn} {before : CoinsView} {coins spent : CCoins} {undo : CTxInUndo}
    (found : before.coins txin.prevout.hash = some coins)
    (step : coins.spend txin.prevout.n.toNat = some (spent, undo)) :
    spendInputs [txin] before = .ok (before.setCoins txin.prevout.hash spent, [undo]) :=
  spendInputs_cons_eq_ok.mpr ⟨coins, spent, undo, [], found, step, rfl, rfl⟩

theorem spendInputs_length {inputs : List CTxIn} {before after : CoinsView} {undos : CTxUndo}
    (run : spendInputs inputs before = .ok (after, undos)) : undos.length = inputs.length := by
  induction inputs generalizing before undos with
  | nil => cases run; rfl
  | cons txin rest ih =>
      obtain ⟨_, _, undo, vprevout, _, _, remaining, rfl⟩ := spendInputs_cons_eq_ok.mp run
      simp [ih remaining]

theorem spendInputs_outputAt {inputs : List CTxIn} {before after : CoinsView} {undos : CTxUndo}
    (run : spendInputs inputs before = .ok (after, undos)) (place : UInt256 × Nat) :
    after.outputAt place =
      if place ∈ inputs.map (·.prevout.place) then none else before.outputAt place := by
  induction inputs generalizing before undos with
  | nil => cases run; rfl
  | cons txin rest ih =>
      obtain ⟨coins, spent, undo, vprevout, found, step, remaining, rfl⟩ := spendInputs_cons_eq_ok.mp run
      have spends := CCoins.spend_eq_some step
      have next : (before.setCoins txin.prevout.hash spent).outputAt place =
          if place = txin.prevout.place then none else before.outputAt place := by
        obtain ⟨txid, nPos⟩ := place
        simp only [COutPoint.place, Prod.mk.injEq]
        by_cases same : txid = txin.prevout.hash
        · subst same
          rw [CoinsView.outputAt_setCoins, spends.output]
          simp [CoinsView.outputAt, found]
        · rw [CoinsView.outputAt_setCoins_other before spent same, if_neg (fun both => same both.1)]
      rw [ih remaining, next]
      simp only [List.map_cons, List.mem_cons]
      by_cases later : place ∈ rest.map (·.prevout.place)
      · simp only [later, if_true, or_true]
      · simp only [later, if_false, or_false]

theorem spendInputs_wellFormed {inputs : List CTxIn} {before after : CoinsView} {undos : CTxUndo}
    (run : spendInputs inputs before = .ok (after, undos)) (wellFormed : before.WellFormed) :
    after.WellFormed ∧ ∀ undo ∈ undos, undo.Storable := by
  induction inputs generalizing before undos with
  | nil =>
      cases run
      exact ⟨wellFormed, by simp⟩
  | cons txin rest ih =>
      obtain ⟨coins, spent, undo, vprevout, found, step, remaining, rfl⟩ := spendInputs_cons_eq_ok.mp run
      have spends := CCoins.spend_eq_some step
      have unspent := CCoins.not_isPruned_of_output spends.txout
      obtain ⟨storable, height⟩ := wellFormed _ coins found unspent
      have size : spent.vout.length ≤ MAX_BLOCK_SIZE := Nat.le_trans spends.size storable.size
      have next : (before.setCoins txin.prevout.hash spent).WellFormed := wellFormed.setCoins (by
        intro _
        refine ⟨⟨?_, spends.metadata.2.1 ▸ storable.height, size⟩, spends.metadata.2.1 ▸ height⟩
        intro nPos txout present
        rw [spends.output] at present
        split at present
        · contradiction
        · exact storable.outputs nPos txout present)
      obtain ⟨preserved, storables⟩ := ih remaining next
      refine ⟨preserved, fun other member => ?_⟩
      rcases List.mem_cons.mp member with rfl | member
      · exact spends.undo_storable storable height
      · exact storables other member

end CTransaction

/-! ## Updating the coins with a list of transactions -/

/-- The outputs that the transactions spend. -/
def spentPlaces (txs : List CTransaction) : List (UInt256 × Nat) :=
  txs.flatMap fun tx => tx.spentInputs.map (·.prevout.place)

theorem mem_spentPlaces_cons {tx : CTransaction} {txs : List CTransaction} {place : UInt256 × Nat} :
    place ∈ spentPlaces (tx :: txs) ↔
      place ∈ tx.spentInputs.map (·.prevout.place) ∨ place ∈ spentPlaces txs := by
  rw [spentPlaces, List.flatMap_cons, List.mem_append]
  rfl

theorem spentPlaces_append (before after : List CTransaction) :
    spentPlaces (before ++ after) = spentPlaces before ++ spentPlaces after := by
  simp only [spentPlaces, List.flatMap_append]

theorem mem_spentPlaces_single {tx : CTransaction} {place : UInt256 × Nat} :
    place ∈ spentPlaces [tx] ↔ place ∈ tx.spentInputs.map (·.prevout.place) := by
  simp [spentPlaces]

section

variable [Hashing]

/-- The transactions of a block, each with the undo data that ConnectBlock keeps
for it, update one view after the other. -/
inductive Applied (nHeight : Int) :
    List (CTransaction × Option CTxUndo) → CoinsView → CoinsView → Prop where
  | nil (view : CoinsView) : Applied nHeight [] view view
  | cons {tx : CTransaction} {txundo : CTxUndo} {kept : Option CTxUndo}
      {rest : List (CTransaction × Option CTxUndo)} {before spent after : CoinsView}
      (inputs : CTransaction.spendInputs tx.spentInputs before = .ok (spent, txundo))
      (keeps : kept = if tx.isCoinBase then none else some txundo)
      (remaining : Applied nHeight rest
        (spent.setCoins tx.getHash (CCoins.ofTransaction tx nHeight)) after) :
      Applied nHeight ((tx, kept) :: rest) before after

variable {nHeight : Int} {entries : List (CTransaction × Option CTxUndo)} {before after : CoinsView}

theorem Applied.append {more : List (CTransaction × Option CTxUndo)} {last : CoinsView}
    (first : Applied nHeight entries before after) (second : Applied nHeight more after last) :
    Applied nHeight (entries ++ more) before last := by
  induction first with
  | nil view => exact second
  | cons inputs keeps remaining ih => exact .cons inputs keeps (ih second)

theorem Applied.wellFormed (applied : Applied nHeight entries before after)
    (height : 0 < nHeight ∧ nHeight < 2 ^ 31)
    (storable : ∀ entry ∈ entries, entry.1.Storable) (wellFormed : before.WellFormed) :
    after.WellFormed ∧ ∀ entry ∈ entries, ∀ txundo, entry.2 = some txundo →
      txundo.length = entry.1.vin.length ∧ ∀ undo ∈ txundo, undo.Storable := by
  induction applied with
  | nil view => exact ⟨wellFormed, by simp⟩
  | @cons tx txundo kept rest before spent after inputs keeps remaining ih =>
      obtain ⟨spentWellFormed, storables⟩ := CTransaction.spendInputs_wellFormed inputs wellFormed
      have coins := (storable _ List.mem_cons_self).coins height
      obtain ⟨preserved, others⟩ := ih (fun entry member => storable entry (List.mem_cons_of_mem _ member))
        (spentWellFormed.setCoins fun _ => coins)
      refine ⟨preserved, fun entry member => ?_⟩
      rcases List.mem_cons.mp member with rfl | member
      · intro undos same
        rw [keeps] at same
        cases coinBase : tx.isCoinBase with
        | true => simp [coinBase] at same
        | false =>
            simp only [coinBase, Bool.false_eq_true, if_false, Option.some.injEq] at same
            subst same
            have length := CTransaction.spendInputs_length inputs
            simp only [CTransaction.spentInputs, coinBase, Bool.false_eq_true, if_false] at length
            exact ⟨length, storables⟩
      · exact others entry member

/-- An output that is not under the txid of one of the transactions stays unless
it is spent. -/
theorem Applied.outputAt_other (applied : Applied nHeight entries before after)
    {place : UInt256 × Nat} (other : ∀ entry ∈ entries, place.1 ≠ entry.1.getHash) :
    after.outputAt place =
      if place ∈ spentPlaces (entries.map Prod.fst) then none else before.outputAt place := by
  induction applied with
  | nil view => rfl
  | @cons tx txundo kept rest before spent after inputs keeps remaining ih =>
      rw [ih fun entry member => other entry (List.mem_cons_of_mem _ member),
        CoinsView.outputAt_setCoins_other spent _ (other _ List.mem_cons_self),
        CTransaction.spendInputs_outputAt inputs]
      simp only [List.map_cons, mem_spentPlaces_cons]
      by_cases first : place ∈ tx.spentInputs.map (·.prevout.place)
      · simp only [first, if_true, true_or, ite_self]
      · simp only [first, if_false, false_or]

end

/-! ## The views of a run of ConnectBlock -/

section

variable [ScriptMachine] {settings : Settings} {mapBlockIndex : BlockMap} {pindex : CBlockIndex}

theorem connectInputs_view {s next : ConnectState} {tx : CTransaction}
    (run : connectInputs settings mapBlockIndex pindex s tx = .ok next) :
    next.view = s.view ∧ next.vtxundo = s.vtxundo := by
  simp only [connectInputs, bind_eq_ok, pure_eq_ok] at run
  obtain ⟨_, _, _, _, _, _, _, _, _, _, _, _, _, _, _, _, rfl⟩ := run
  exact ⟨rfl, rfl⟩

variable [Hashing]

theorem connectTransaction_applied {s next : ConnectState} {tx : CTransaction}
    (run : connectTransaction settings mapBlockIndex pindex s tx = .ok next) :
    ∃ spent txundo, CTransaction.spendInputs tx.spentInputs s.view = .ok (spent, txundo) ∧
      next.view = spent.setCoins tx.getHash (CCoins.ofTransaction tx pindex.nHeight) ∧
      next.vtxundo = s.vtxundo ++ if tx.isCoinBase then [] else [txundo] := by
  simp only [connectTransaction, bind_eq_ok, pure_eq_ok, Prod.exists] at run
  obtain ⟨_, _, checked, checks, view, txundo, update, rfl⟩ := run
  have same : checked.view = s.view ∧ checked.vtxundo = s.vtxundo := by
    cases coinBase : tx.isCoinBase with
    | true =>
        rw [coinBase] at checks
        cases checks
        exact ⟨rfl, rfl⟩
    | false =>
        simp only [coinBase, Bool.false_eq_true, if_false] at checks
        have kept := connectInputs_view checks
        exact kept
  obtain ⟨spent, inputs, rfl⟩ := CTransaction.updateCoins_eq_ok.mp update
  rw [same.1] at inputs
  refine ⟨spent, txundo, inputs, rfl, ?_⟩
  rw [same.2]
  split <;> simp

theorem connectLoop_applied {txs : List CTransaction} {s last : ConnectState}
    (run : txs.foldlM (connectTransaction settings mapBlockIndex pindex) s = .ok last) :
    ∃ entries, entries.map Prod.fst = txs ∧ Applied pindex.nHeight entries s.view last.view ∧
      last.vtxundo = s.vtxundo ++ entries.filterMap Prod.snd ∧
      ∀ entry ∈ entries, entry.2 = none ↔ entry.1.isCoinBase := by
  induction txs generalizing s with
  | nil =>
      cases run
      exact ⟨[], rfl, .nil _, by simp, by simp⟩
  | cons tx rest ih =>
      obtain ⟨next, step, remaining⟩ := foldlM_cons_eq_ok.mp run
      obtain ⟨spent, txundo, inputs, view, undo⟩ := connectTransaction_applied step
      obtain ⟨entries, names, applied, undos, coinBases⟩ := ih remaining
      rw [view] at applied
      refine ⟨(tx, if tx.isCoinBase then none else some txundo) :: entries,
        by rw [List.map_cons, names], .cons inputs rfl applied, ?_, ?_⟩
      · rw [undos, undo, List.append_assoc]
        cases coinBase : tx.isCoinBase <;> simp
      · intro entry member
        rcases List.mem_cons.mp member with rfl | member
        · cases coinBase : tx.isCoinBase <;> simp
        · exact coinBases entry member

/-- What ConnectBlock has established when it connects a block other than the genesis block. -/
structure CBlock.Connects (settings : Settings) (mapBlockIndex : BlockMap) (block : CBlock)
    (pindex : CBlockIndex) (view : CoinsView) (s : ConnectState) : Prop where
  checked : block.Checked
  parent : pindex.pprev = view.best
  notGenesis : block.getHash ≠ hashGenesisBlock
  fresh : pindex.phashBlock = none → ∀ tx ∈ block.vtx, view.hasUnspent tx.getHash = false
  loop : block.vtx.foldlM (connectTransaction settings mapBlockIndex pindex) ⟨view, 0, 0, [], []⟩ = .ok s
  reward : ∃ coinbase nValueOut nBlockValue, block.vtx.head? = some coinbase ∧
    coinbase.getValueOut = .ok nValueOut ∧ getBlockValue pindex.nHeight s.nFees = .ok nBlockValue ∧
    nValueOut ≤ nBlockValue
  scripts : ∀ check ∈ s.vChecks, check.run = true

theorem CBlock.connectBlock_cases {block : CBlock} {view after : CoinsView} {fJustCheck : Bool}
    {blockundo : Option CBlockUndo}
    (run : block.connectBlock settings mapBlockIndex pindex view fJustCheck = .ok (after, blockundo)) :
    (block.getHash = hashGenesisBlock ∧ blockundo = none ∧ after = view.setBestBlock pindex.phashBlock) ∨
      ∃ s, block.Connects settings mapBlockIndex pindex view s ∧ blockundo = some s.vtxundo ∧
        after = if fJustCheck then s.view else s.view.setBestBlock pindex.phashBlock := by
  simp only [connectBlock, bind_eq_ok, require_eq_ok, exists_const] at run
  obtain ⟨_, checks, parent, rest⟩ := run
  have checked := CBlock.Checked.of_checkBlock checks
  by_cases genesis : block.getHash = hashGenesisBlock
  · rw [if_pos genesis] at rest
    cases rest
    exact .inl ⟨genesis, rfl, rfl⟩
  · rw [if_neg genesis] at rest
    obtain ⟨s, run, result⟩ := bind_eq_ok.mp rest
    cases result
    simp only [connectTransactions, bind_eq_ok, require_eq_ok, expect_eq_ok, pure_eq_ok, exists_const] at run
    obtain ⟨fresh, last, loop, coinbase, first, nValueOut, valueOut, nBlockValue, blockValue, reward,
      scripts, rfl⟩ := run
    refine .inr ⟨last, ⟨checked, parent, genesis, ?_, loop,
      ⟨coinbase, nValueOut, nBlockValue, first, valueOut, blockValue, reward⟩, ?_⟩, rfl, rfl⟩
    · intro dummy tx member
      simpa using List.all_eq_true.mp (fresh dummy) tx member
    · exact List.all_eq_true.mp scripts

end

end BitCrystal
