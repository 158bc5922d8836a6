import BitCrystal.MempoolInputs

namespace BitCrystal

open Data

/-! # Transactions that return to the memory pool

SetBestChain replays the transactions of the disconnected blocks, tip first, and
then removes what the new branch has made obsolete. -/

/-! ## The checks on the inputs -/

/-- Two views that a transaction cannot tell apart by its inputs. -/
structure CoinsView.AgreesOn (view other : CoinsView) (inputs : List CTxIn) : Prop where
  best : view.best = other.best
  coins : ∀ txin ∈ inputs, view.coins txin.prevout.hash = other.coins txin.prevout.hash

section

variable {view other : CoinsView}

theorem CoinsView.AgreesOn.output {inputs : List CTxIn} (agrees : view.AgreesOn other inputs) {txin : CTxIn}
    (member : txin ∈ inputs) : view.output txin.prevout = other.output txin.prevout := by
  have same := agrees.coins txin member
  simp only [CoinsView.output, CoinsView.outputAt, COutPoint.place, same]

namespace CTransaction

variable {tx : CTransaction}

theorem haveInputs_congr (agrees : view.AgreesOn other tx.vin) : tx.haveInputs view = tx.haveInputs other := by
  have both : tx.haveInputs view = true ↔ tx.haveInputs other = true := by
    rw [haveInputs_iff, haveInputs_iff]
    refine forall₂_congr fun txin member => ?_
    have inVin : txin ∈ tx.vin := by
      unfold spentInputs at member
      split at member
      · contradiction
      · exact member
    rw [agrees.output inVin]
  exact Bool.eq_iff_iff.mpr both

theorem getValueIn_congr (agrees : view.AgreesOn other tx.vin) : tx.getValueIn view = tx.getValueIn other := by
  unfold getValueIn
  split
  · rfl
  · apply foldlM_congr
    intro txin member total
    simp only [addValueIn, getOutputFor, agrees.output member]

variable [ScriptMachine]

theorem areInputsStandard_congr (agrees : view.AgreesOn other tx.vin) :
    tx.areInputsStandard view = tx.areInputsStandard other := by
  unfold areInputsStandard
  split
  · rfl
  · apply foldlM_congr
    intro input member standard
    have inVin : input.1 ∈ tx.vin := by
      obtain ⟨_, _, found⟩ := List.mem_zipIdx member
      rw [found]
      exact List.getElem_mem _
    simp only [addInputStandard, getOutputFor, agrees.output inVin]

theorem checkInputs_congr (agrees : view.AgreesOn other tx.vin) (mapBlockIndex : BlockMap)
    (fScriptChecks : Bool) (flags : UInt32) (pvChecks : Bool) :
    tx.checkInputs mapBlockIndex view fScriptChecks flags pvChecks =
      tx.checkInputs mapBlockIndex other fScriptChecks flags pvChecks := by
  have values : ∀ height, tx.vin.foldlM (checkInput view height) 0 = tx.vin.foldlM (checkInput other height) 0 := by
    intro height
    apply foldlM_congr
    intro txin member total
    simp only [checkInput, agrees.coins txin member]
  have checks : tx.vin.zipIdx.mapM (tx.scriptCheck view flags) = tx.vin.zipIdx.mapM (tx.scriptCheck other flags) := by
    apply mapM_congr
    intro input member
    have inVin : input.1 ∈ tx.vin := by
      obtain ⟨_, _, found⟩ := List.mem_zipIdx member
      rw [found]
      exact List.getElem_mem _
    simp only [scriptCheck, agrees.coins input.1 inVin]
  simp only [checkInputs, haveInputs_congr agrees, agrees.best, values, checks]

end CTransaction

end

/-! ## What accept asks of a transaction -/

namespace CTxMemPool

theorem coinsView_of_chain {pool : CTxMemPool} {base : CoinsView} {outpoint : COutPoint}
    (unspent : (base.output outpoint).isSome) :
    (pool.coinsView base).coins outpoint.hash = base.coins outpoint.hash := by
  obtain ⟨txout, present⟩ := Option.isSome_iff_exists.mp unspent
  obtain ⟨coins, found, _⟩ := CoinsView.output_eq_some.mp present
  simp [coinsView, found]

theorem coinsView_of_pool {pool : CTxMemPool} {base : CoinsView} {txid : UInt256} {stored : CTransaction}
    (missing : base.coins txid = none) (found : pool.mapTx[txid]? = some stored) :
    (pool.coinsView base).coins txid = some (CCoins.ofTransaction stored MEMPOOL_HEIGHT) := by
  simp [coinsView, missing, found]

section

variable [ScriptMachine]

/-- The checks of accept, without the rate limiter, that do not ask whether the
transaction is known and its inputs are there. -/
structure Passes (context : AcceptContext) (view : CoinsView) (tx : CTransaction) : Prop where
  checked : tx.checkTransaction = .ok ()
  loose : tx.isCoinBase = false
  lockTime : tx.nLockTime.toNat ≤ 0x7fffffff
  standard : context.settings.fTestNet || tx.isStandard context.settings context.nBestHeight
  inputsStandard : ∃ standard, tx.areInputsStandard view = .ok standard ∧ (standard || context.settings.fTestNet)
  fees : ∃ nValueIn nValueOut nFees, tx.getValueIn view = .ok nValueIn ∧ tx.getValueOut = .ok nValueOut ∧
    subInt64 nValueIn nValueOut = .ok nFees
  scripts : ∃ checks, tx.checkInputs context.mapBlockIndex view true
    (SCRIPT_VERIFY_P2SH ||| SCRIPT_VERIFY_STRICTENC) false = .ok checks

variable [Hashing] {context : AcceptContext} {pool : CTxMemPool} {view : CoinsView} {tx : CTransaction}

theorem Passes.accept (passes : Passes context view tx)
    (agrees : (pool.coinsView context.pcoinsTip).AgreesOn view tx.vin)
    (fresh : pool.mapTx[tx.getHash]? = none) (free : ∀ outpoint ∈ tx.prevouts, pool.mapNextTx[outpoint]? = none)
    (absent : context.pcoinsTip.coins tx.getHash = none)
    (available : ∀ outpoint ∈ tx.prevouts, ((pool.coinsView context.pcoinsTip).output outpoint).isSome) :
    pool.accept context tx true false = .ok (pool.addUnchecked tx.getHash tx) := by
  obtain ⟨standard, inputsStandard, allowed⟩ := passes.inputsStandard
  obtain ⟨nValueIn, nValueOut, nFees, valueIn, valueOut, fees⟩ := passes.fees
  obtain ⟨checks, scripts⟩ := passes.scripts
  rw [← CTransaction.areInputsStandard_congr agrees] at inputsStandard
  rw [← CTransaction.getValueIn_congr agrees] at valueIn
  rw [← CTransaction.checkInputs_congr agrees] at scripts
  have unknown : (pool.coinsView context.pcoinsTip).haveCoins tx.getHash = false := by
    simp [CoinsView.haveCoins, coinsView, absent, fresh]
  have found : ∀ txin ∈ tx.vin, ∃ txout,
      (pool.coinsView context.pcoinsTip).output txin.prevout = some txout :=
    fun txin member => Option.isSome_iff_exists.mp (available _ (List.mem_map_of_mem member))
  have known : tx.vin.all (fun txin => (pool.coinsView context.pcoinsTip).haveCoins txin.prevout.hash) = true := by
    rw [List.all_eq_true]
    intro txin member
    obtain ⟨txout, present⟩ := found txin member
    obtain ⟨coins, entry, _⟩ := CoinsView.output_eq_some.mp present
    simp [CoinsView.haveCoins, entry]
  have inputs : tx.haveInputs (pool.coinsView context.pcoinsTip) = true := by
    rw [CTransaction.haveInputs_iff]
    intro txin member
    rw [CTransaction.spentInputs, passes.loose] at member
    exact found txin member
  have checked : pool.acceptInputs context tx false = .ok () := by
    simp only [acceptInputs, bind_eq_ok, require_eq_ok, exists_const]
    exact ⟨by simp [unknown], known, inputs, standard, inputsStandard, allowed, nValueIn, valueIn, nValueOut,
      valueOut, nFees, fees, by simp, by simp, checks, scripts, rfl⟩
  have unspent : tx.vin.all (fun txin => !pool.mapNextTx.contains txin.prevout) = true := by
    rw [List.all_eq_true]
    intro txin member
    simp [contains_eq_false_iff.mpr (free _ (List.mem_map_of_mem member))]
  simp only [CTxMemPool.accept, if_true, bind_eq_ok, require_eq_ok, exists_const, pure_eq_ok]
  exact ⟨(), passes.checked, by simp [passes.loose], passes.lockTime, passes.standard,
    by simp [contains_eq_false_iff.mpr fresh], unspent, (), checked, trivial⟩

theorem Passes.resurrect {next : CTxMemPool} (passes : Passes context view tx)
    (agrees : (pool.coinsView context.pcoinsTip).AgreesOn view tx.vin)
    (free : pool.mapTx[tx.getHash]? = none → ∀ outpoint ∈ tx.prevouts, pool.mapNextTx[outpoint]? = none)
    (absent : context.pcoinsTip.coins tx.getHash = none)
    (available : ∀ outpoint ∈ tx.prevouts, ((pool.coinsView context.pcoinsTip).output outpoint).isSome)
    (run : BitCrystal.resurrect context pool tx = .ok next) :
    ∃ stored, next.mapTx[tx.getHash]? = some stored := by
  cases before : pool.mapTx[tx.getHash]? with
  | some stored =>
      cases resurrect_cases run with
      | inl same => exact ⟨stored, same ▸ before⟩
      | inr accepted => exact ⟨stored, accepted.extends _ _ before⟩
  | none =>
      have accepted := passes.accept agrees before (free before) absent available
      simp only [BitCrystal.resurrect, acceptToMemoryPool, accepted, Except.ok.injEq] at run
      exact ⟨tx, by simp [← run, addUnchecked_mapTx]⟩

end

end CTxMemPool

/-! ## The replay -/

namespace ChainState

open CTxMemPool

/-- The transactions that SetBestChain replays, in their order: those of the
disconnected blocks above the last checkpoint, without the coinbases, from the
tip down. -/
def replayOrder (s : ChainState) (switch : Switch) : List CTransaction :=
  switch.vDisconnect.flatMap fun hash =>
    match s.mapBlockIndex.fileBlock s.blockFiles hash with
    | none => []
    | some block => block.vtx.filter fun tx =>
        !tx.isCoinBase && getTotalBlocksEstimate < s.mapBlockIndex.height hash

section

variable [Hashing] [PubKeys] {s : ChainState} {pindexNew : UInt256} {switch : Switch} {u last : Unwinding}

theorem disconnectTips_vResurrect {hashes : List UInt256}
    (run : hashes.foldlM (disconnectTip s) u = .ok last) :
    last.vResurrect = u.vResurrect ++ s.replayOrder ⟨hashes, []⟩ := by
  induction hashes generalizing u with
  | nil =>
      cases run
      simp [replayOrder]
  | cons hash rest ih =>
      obtain ⟨next, step, remaining⟩ := foldlM_cons_eq_ok.mp run
      simp only [disconnectTip, bind_eq_ok, expect_eq_ok, require_eq_ok, pure_eq_ok, Prod.exists,
        exists_const] at step
      obtain ⟨index, found, block, read, view, fClean, undone, clean, rfl⟩ := step
      have stored : s.mapBlockIndex.fileBlock s.blockFiles hash = some block := by
        simp [BlockMap.fileBlock, found, (readFromDisk_eq_some read).1]
      rw [ih remaining, List.append_assoc]
      simp [replayOrder, stored, BlockMap.height_of found]

theorem unwind_vResurrect (unwound : s.unwind pindexNew = .ok (switch, u)) :
    u.vResurrect = s.replayOrder switch := by
  simp only [unwind, bind_eq_ok, pure_eq_ok, Prod.mk.injEq] at unwound
  obtain ⟨plan, _, unwinding, disconnected, rfl, rfl⟩ := unwound
  rw [disconnectTips_vResurrect disconnected, List.nil_append]
  rfl

end

section

variable [Hashing] [ScriptMachine] {occurring txs : Set CTransaction} {context : AcceptContext}
  {order : List CTransaction} {start pool : CTxMemPool}

/-- An outpoint that is unspent in the chain or an output of a transaction that
only the pool has. -/
def Source (base : CoinsView) (pool : CTxMemPool) (outpoint : COutPoint) : Prop :=
  (base.output outpoint).isSome ∨ ∃ stored, base.coins outpoint.hash = none ∧
    pool.mapTx[outpoint.hash]? = some stored ∧ outpoint.n.toNat < stored.vout.length

theorem enters_of_sources {between reached : CTxMemPool} {tx : CTransaction} (sound : Sound occurring between)
    (grows : between.Extends pool) (passes : Passes context (pool.coinsView context.pcoinsTip) tx)
    (absent : context.pcoinsTip.coins tx.getHash = none) (poolFree : pool.ConflictFree tx)
    (sources : ∀ outpoint ∈ tx.prevouts, Source context.pcoinsTip between outpoint)
    (run : resurrect context between tx = .ok reached) :
    ∃ stored, reached.mapTx[tx.getHash]? = some stored := by
  have agrees : (between.coinsView context.pcoinsTip).AgreesOn (pool.coinsView context.pcoinsTip) tx.vin := by
    refine ⟨rfl, fun txin input => ?_⟩
    rcases sources _ (List.mem_map_of_mem input) with unspent | ⟨stored, missing, found, _⟩
    · rw [coinsView_of_chain unspent, coinsView_of_chain unspent]
    · rw [coinsView_of_pool missing found, coinsView_of_pool missing (grows _ _ found)]
  refine passes.resurrect agrees ?_ absent ?_ run
  · intro fresh outpoint spends
    by_contra conflict
    obtain ⟨inPoint, found⟩ := Option.ne_none_iff_exists'.mp conflict
    obtain ⟨other, stored, input⟩ := (sound.exact.index _ _).mp found
    have different : inPoint.ptx ≠ tx.getHash := by
      rintro same
      rw [same, fresh] at stored
      contradiction
    exact poolFree _ other (grows _ _ stored) different outpoint spends (List.mem_of_getElem? input)
  · intro outpoint spends
    rcases sources outpoint spends with unspent | ⟨stored, missing, found, within⟩
    · have same : (between.coinsView context.pcoinsTip).coins outpoint.place.1 =
          context.pcoinsTip.coins outpoint.place.1 := coinsView_of_chain unspent
      rw [CoinsView.output, CoinsView.outputAt, same]
      exact unspent
    · obtain ⟨_, checked⟩ := sound.stored _ stored found
      have output : (between.coinsView context.pcoinsTip).output outpoint = stored.vout[outpoint.n.toNat]? := by
        have coins : (between.coinsView context.pcoinsTip).coins outpoint.place.1 = _ :=
          coinsView_of_pool missing found
        rw [CoinsView.output, CoinsView.outputAt, coins]
        exact checked.storable.output MEMPOOL_HEIGHT outpoint.n.toNat
      rw [output]
      simp [within]

/-- What a replay in this order asks of transactions that are to return to the
pool it leaves; an input has to be unspent in the chain or to come from such a
transaction before it. -/
structure Returning (context : AcceptContext) (order : List CTransaction) (pool : CTxMemPool)
    (txs : Set CTransaction) : Prop where
  passes : ∀ tx ∈ txs, Passes context (pool.coinsView context.pcoinsTip) tx
  absent : ∀ tx ∈ txs, context.pcoinsTip.coins tx.getHash = none
  poolFree : ∀ tx ∈ txs, pool.ConflictFree tx
  inputs : ∀ tx ∈ txs, ∀ pre post, order = pre ++ tx :: post → ∀ outpoint ∈ tx.prevouts,
    (context.pcoinsTip.output outpoint).isSome ∨ ∃ parent ∈ txs, parent ∈ pre ∧
      parent.getHash = outpoint.hash ∧ outpoint.n.toNat < parent.vout.length

theorem Returning.enters (returning : Returning context order pool txs)
    (collisionFree : CollisionFree occurring) (occurs : ∀ tx ∈ order, tx ∈ occurring)
    (sound : Sound occurring start) (replay : order.foldlM (resurrect context) start = .ok pool)
    {pre post : List CTransaction} {tx : CTransaction} (split : order = pre ++ tx :: post) (member : tx ∈ txs)
    {reached : CTxMemPool} (run : (pre ++ [tx]).foldlM (resurrect context) start = .ok reached) :
    ∃ stored, reached.mapTx[tx.getHash]? = some stored := by
  induction length : pre.length using Nat.strong_induction_on generalizing pre post tx reached with
  | _ _ ih =>
      obtain ⟨between, first, turn⟩ := foldlM_append_eq_ok.mp run
      obtain ⟨_, step, same⟩ := foldlM_cons_eq_ok.mp turn
      cases same
      have early : ∀ other ∈ pre, other ∈ occurring :=
        fun other inPre => occurs other (by rw [split]; exact List.mem_append_left _ inPre)
      have late : ∀ other ∈ tx :: post, other ∈ occurring :=
        fun other inPost => occurs other (by rw [split]; exact List.mem_append_right _ inPost)
      obtain ⟨soundBetween, _⟩ := replay_fed first early sound
      rw [split] at replay
      obtain ⟨again, sameFirst, rest⟩ := foldlM_append_eq_ok.mp replay
      rw [first] at sameFirst
      cases sameFirst
      obtain ⟨_, grows, _⟩ := replay_fed rest late soundBetween
      refine enters_of_sources soundBetween grows (returning.passes tx member) (returning.absent tx member)
        (returning.poolFree tx member) (fun outpoint spends => ?_) step
      refine (returning.inputs tx member pre post split outpoint spends).imp_right ?_
      rintro ⟨parent, inTxs, inPre, same, within⟩
      -- the parent has had its turn, and what is in the pool stays there
      obtain ⟨front, middle, shape⟩ := List.append_of_mem inPre
      rw [shape, List.append_cons] at first early
      obtain ⟨after, parentRun, later⟩ := foldlM_append_eq_ok.mp first
      have shorter : front.length < pre.length := by simp [shape]
      obtain ⟨stored, found⟩ := ih front.length (length ▸ shorter)
        (by rw [split, shape, List.append_assoc, List.cons_append]) inTxs parentRun rfl
      obtain ⟨soundAfter, _⟩ := replay_fed parentRun
        (fun other inFront => early other (List.mem_append_left _ inFront)) sound
      obtain ⟨_, stays, _⟩ := replay_fed later
        (fun other inMiddle => early other (List.mem_append_right _ inMiddle)) soundAfter
      have parentOccurs : parent ∈ occurring := early parent (List.mem_append_left _ (by simp))
      refine ⟨stored, same ▸ returning.absent parent inTxs, same ▸ stays _ _ found, ?_⟩
      rw [(soundBetween.agrees collisionFree parentOccurs stored (stays _ _ found)).2]
      exact within

theorem Returning.returned (returning : Returning context order pool txs)
    (collisionFree : CollisionFree occurring) (occurs : ∀ tx ∈ order, tx ∈ occurring)
    (sound : Sound occurring start) (replay : order.foldlM (resurrect context) start = .ok pool)
    {tx : CTransaction} (dropped : tx ∈ order) (member : tx ∈ txs) :
    ∃ stored, pool.mapTx[tx.getHash]? = some stored := by
  obtain ⟨pre, post, split⟩ := List.append_of_mem dropped
  have whole := replay
  rw [split, List.append_cons] at whole
  obtain ⟨reached, first, rest⟩ := foldlM_append_eq_ok.mp whole
  obtain ⟨stored, found⟩ := returning.enters collisionFree occurs sound replay split member first
  have all : ∀ other ∈ (pre ++ [tx]) ++ post, other ∈ occurring :=
    fun other inOrder => occurs other (by rw [split, List.append_cons]; exact inOrder)
  obtain ⟨soundReached, _⟩ := replay_fed first (fun other early => all other (List.mem_append_left _ early)) sound
  obtain ⟨_, grows, _⟩ := replay_fed rest (fun other late => all other (List.mem_append_right _ late)) soundReached
  exact ⟨stored, grows _ _ found⟩

end

/-! ## The removal of connected transactions -/

/-- A transaction stays when neither it nor a transaction of the pool that it
descends from conflicts with a connected one. -/
theorem removeConnected_keeps [Hashing] {occurring : Set CTransaction} {pool next : CTxMemPool}
    {connected : List CTransaction} {key : UInt256} (collisionFree : CollisionFree occurring)
    (occurs : ∀ tx ∈ connected, tx ∈ occurring) (sound : Sound occurring pool)
    (member : ∃ stored, pool.mapTx[key]? = some stored) (other : ∀ tx ∈ connected, tx.getHash ≠ key)
    (free : ∀ (hash : UInt256) (above : CTransaction), pool.mapTx[hash]? = some above →
      key ∈ descendants pool.Child hash → ∀ tx ∈ connected, hash ≠ tx.getHash →
        ∀ outpoint ∈ above.prevouts, outpoint ∉ tx.prevouts)
    (run : connected.foldlM removeConnected pool = .ok next) : ∃ stored, next.mapTx[key]? = some stored := by
  induction connected generalizing pool with
  | nil =>
      cases run
      exact member
  | cons tx rest ih =>
      obtain ⟨between, step, remaining⟩ := foldlM_cons_eq_ok.mp run
      obtain ⟨gone, cleared⟩ :=
        removeConnected_cleared sound collisionFree (occurs tx List.mem_cons_self) step
      have stays : key ∉ gone := by
        intro inside
        obtain ⟨hash, above, stored, different, ⟨outpoint, spends, also⟩, path⟩ :=
          cleared.conflict key inside (other tx List.mem_cons_self).symm
        exact free hash above stored path tx List.mem_cons_self different outpoint spends also
      refine ih (fun later inRest => occurs later (List.mem_cons_of_mem tx inRest))
        (sound.removed cleared.removed) ?_ (fun later inRest => other later (List.mem_cons_of_mem tx inRest))
        ?_ remaining
      · rw [cleared.removed.kept key stays]
        exact member
      · intro hash above stored path later inRest
        refine free hash above (cleared.removed.of_mem stored).2 ?_ later (List.mem_cons_of_mem tx inRest)
        exact descendants_mono (fun parent child edge => (cleared.removed.child.mp edge).2.2) path

/-! ## Reorganisations -/

theorem reload_coins_none [PubKeys] {view : CoinsView} (wellFormed : view.WellFormed) {txid : UInt256}
    (spent : view.reload.hasUnspent txid = false) : view.reload.coins txid = none := by
  cases found : view.reload.coins txid with
  | none => rfl
  | some stored =>
      obtain ⟨coins, _, unspent, onDisk⟩ := wellFormed.reload_coins found
      obtain ⟨nPos, txout, present⟩ := CCoins.exists_output_of_not_isPruned unspent
      rw [← onDisk.output] at present
      simp [CoinsView.hasUnspent, found, CCoins.not_isPruned_of_output present] at spent

section

variable [Hashing]

/-- Transactions of disconnected blocks that are not in the new chain, conflict
with nothing in it or in the pool, and whose inputs are unspent in the new chain
or outputs of such transactions. -/
structure StillValid (s after : ChainState) (switch : Switch) (vDelete : List CTransaction)
    (txs : Set CTransaction) : Prop where
  dropped : ∀ tx ∈ txs, tx ∈ s.replayOrder switch
  notInChain : ∀ tx ∈ txs, after.pcoinsTip.hasUnspent tx.getHash = false ∧
    ∀ connected ∈ vDelete, connected.getHash ≠ tx.getHash
  chainFree : ∀ tx ∈ txs, ∀ connected ∈ vDelete, ∀ outpoint ∈ tx.prevouts, outpoint ∉ connected.prevouts
  poolFree : ∀ tx ∈ txs, s.mempool.ConflictFree tx
  inputs : ∀ tx ∈ txs, ∀ outpoint ∈ tx.prevouts, (after.pcoinsTip.output outpoint).isSome ∨
    ∃ parent ∈ txs, parent.getHash = outpoint.hash ∧ outpoint.n.toNat < parent.vout.length

variable [PubKeys] [ScriptMachine] {occurring txs : Set CTransaction} {env : Surroundings} {s after : ChainState}
  {pindexNew : UInt256} {switch : Switch} {u : Unwinding} {w : Winding} {pool : CTxMemPool}

/-- Such transactions that accept takes on the coins of the new chain and of the
pool, that the replay reaches after those they spend from, and that conflict with
nothing in the pool even after the replay; nor does a transaction of the pool
that they descend from conflict with the new chain. -/
structure Resurrectable (env : Surroundings) (s after : ChainState) (switch : Switch) (w : Winding)
    (pool : CTxMemPool) (txs : Set CTransaction) : Prop extends StillValid s after switch w.vDelete txs where
  passes : ∀ tx ∈ txs, Passes (s.resurrectContext env switch w) (pool.coinsView after.pcoinsTip) tx
  ordered : ∀ tx ∈ txs, ∀ parent ∈ txs, (∃ outpoint ∈ tx.prevouts, outpoint.hash = parent.getHash) →
    ∀ pre post, s.replayOrder switch = pre ++ tx :: post → parent ∈ pre
  replayFree : ∀ tx ∈ txs, pool.ConflictFree tx
  aboveFree : ∀ tx ∈ txs, ∀ (hash : UInt256) (above : CTransaction), pool.mapTx[hash]? = some above →
    tx.getHash ∈ descendants pool.Child hash → ∀ connected ∈ w.vDelete, hash ≠ connected.getHash →
      ∀ outpoint ∈ above.prevouts, outpoint ∉ connected.prevouts

theorem Resurrectable.returning (resurrectable : Resurrectable env s after switch w pool txs)
    (moved : s.Moved env pindexNew switch u w after) (wellFormed : w.view.WellFormed)
    (writes : env.writesCoins = true) :
    Returning (s.resurrectContext env switch w) (s.replayOrder switch) pool txs := by
  have coins : (s.resurrectContext env switch w).pcoinsTip = after.pcoinsTip := moved.coins.symm
  have written : after.pcoinsTip = w.view.reload := by rw [moved.coins, newTip, if_pos writes]
  refine ⟨?_, ?_, resurrectable.replayFree, ?_⟩
  · rw [coins]
    exact resurrectable.passes
  · intro tx member
    have spent := (resurrectable.notInChain tx member).1
    rw [written] at spent
    rw [coins, written]
    exact reload_coins_none wellFormed spent
  · intro tx member pre post split outpoint spends
    rw [coins]
    refine (resurrectable.inputs tx member outpoint spends).imp_right ?_
    rintro ⟨parent, inTxs, same, within⟩
    exact ⟨parent, inTxs, resurrectable.ordered tx member parent inTxs ⟨outpoint, spends, same.symm⟩ pre post split,
      same, within⟩

theorem Ready.returns (ready : s.Ready occurring) (collisionFree : CollisionFree occurring)
    (sound : Sound occurring s.mempool) (moved : s.Moved env pindexNew switch u w after)
    (replayed : s.Replayed env pindexNew switch u w pool) (writes : env.writesCoins = true)
    (remaining : w.vDelete.foldlM removeConnected pool = .ok after.mempool)
    (resurrectable : Resurrectable env s after switch w pool txs) {tx : CTransaction} (member : tx ∈ txs) :
    ∃ stored, after.mempool.mapTx[tx.getHash]? = some stored := by
  obtain ⟨_, winds⟩ := ready.wound collisionFree moved.unwound
  obtain ⟨flows, _⟩ := winds w moved.wound
  obtain ⟨_, _, _, disconnected⟩ := ready.unwound moved.unwound
  have occurs : ∀ other ∈ u.vResurrect, other ∈ occurring :=
    fun other inList => ready.disconnected_occurs (disconnected other inList)
  obtain ⟨soundPool, _⟩ := replay_fed replayed.replay occurs sound
  have replay := replayed.replay
  rw [unwind_vResurrect moved.unwound] at replay occurs
  have entered := (resurrectable.returning moved flows.wellFormed writes).returned collisionFree occurs sound
    replay (resurrectable.dropped tx member) member
  exact removeConnected_keeps collisionFree (fun other inList => (flows.checked other inList).1) soundPool entered
    (resurrectable.notInChain tx member).2 (resurrectable.aboveFree tx member) remaining

end

end ChainState

/-! ## Examples -/

namespace Sample

/-- A transaction that locks itself until long after 2038, but whose inputs are final. -/
def late : CTransaction :=
  { forward with nLockTime := 0x80000000 }

end Sample

namespace ChainState

open Sample

end ChainState

end BitCrystal
