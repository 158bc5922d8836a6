import BitCrystal.BlockTemplate
import BitCrystal.Overflow

namespace BitCrystal

open Data Relation

/-! # Filling a block

A transaction of the pool is in the queue, waits for others, is in the block or has been left out. -/

/-! ## Views that lose outputs -/

/-- The outputs of a transaction that are still there are the same ones. -/
def CoinsView.Dwindles (view after : CoinsView) (txid : UInt256) : Prop :=
  ∀ left, after.coins txid = some left → ∃ coins, view.coins txid = some coins ∧
    ∀ nPos txout, left.output nPos = some txout → coins.output nPos = some txout

namespace CoinsView.Dwindles

variable {view between after : CoinsView} {txid : UInt256}

theorem refl (view : CoinsView) (txid : UInt256) : view.Dwindles view txid :=
  fun left found => ⟨left, found, fun _ _ present => present⟩

theorem trans (first : view.Dwindles between txid) (second : between.Dwindles after txid) :
    view.Dwindles after txid := by
  intro left found
  obtain ⟨middle, there, outputs⟩ := second left found
  obtain ⟨coins, here, outputs'⟩ := first middle there
  exact ⟨coins, here, fun nPos txout present => outputs' nPos txout (outputs nPos txout present)⟩

theorem of_spendInputs {inputs : List CTxIn} {undos : CTxUndo}
    (run : CTransaction.spendInputs inputs view = .ok (after, undos)) (txid : UInt256) :
    view.Dwindles after txid := by
  induction inputs generalizing view undos with
  | nil =>
      cases run
      exact refl _ _
  | cons txin rest ih =>
      obtain ⟨coins, spent, undo, vprevout, found, step, remaining, rfl⟩ :=
        CTransaction.spendInputs_cons_eq_ok.mp run
      refine trans ?_ (ih remaining)
      have spends := CCoins.spend_eq_some step
      intro left there
      by_cases same : txid = txin.prevout.hash
      · subst same
        rw [setCoins_same] at there
        cases there
        refine ⟨coins, found, fun nPos txout present => ?_⟩
        rw [spends.output] at present
        split at present
        · contradiction
        · exact present
      · rw [setCoins_other _ _ same] at there
        exact refl _ _ left there

theorem of_updateCoins {tx : CTransaction} {nHeight : Int} {txhash : UInt256} {txundo : CTxUndo}
    (run : tx.updateCoins view nHeight txhash = .ok (after, txundo)) (other : txid ≠ txhash) :
    view.Dwindles after txid := by
  obtain ⟨spent, inputs, rfl⟩ := CTransaction.updateCoins_eq_ok.mp run
  intro left found
  rw [setCoins_other _ _ other] at found
  exact of_spendInputs inputs txid left found

theorem output (dwindles : view.Dwindles after txid) {nPos : Nat} {txout : CTxOut}
    (present : after.outputAt (txid, nPos) = some txout) : view.outputAt (txid, nPos) = some txout := by
  obtain ⟨left, found, output⟩ := Option.bind_eq_some_iff.mp present
  obtain ⟨coins, there, outputs⟩ := dwindles left found
  exact Option.bind_eq_some_iff.mpr ⟨coins, there, outputs nPos txout output⟩

end CoinsView.Dwindles

/-! ## What is still to come -/

section

variable [DoubleMath]

def waitingTransaction : Option COrphan → Option CTransaction
  | some porphan => if porphan.setDependsOn = ∅ then none else some porphan.ptx
  | none => none

/-- The orphans that have not been put into the queue. -/
def waiting (vOrphan : List (Option COrphan)) : List CTransaction := vOrphan.filterMap waitingTransaction

def PoolLists.pending (g : PoolLists) : List CTransaction := g.vecPriority.map TxPriority.ptx ++ waiting g.vOrphan

def Assembly.pending (s : Assembly) : List CTransaction := s.vecPriority.map TxPriority.ptx ++ waiting s.vOrphan

omit [DoubleMath] in
/-- The transactions that the first loop does not skip -/
def MinerContext.admits (context : MinerContext) (tx : CTransaction) : Bool :=
  !tx.isCoinBase && tx.isFinal context.nBestHeight context.settings.adjustedTime 0 0

section

variable {context : MinerContext} {g next : PoolLists} {tx : CTransaction}

theorem gather_pending (run : gather context g tx = .ok next) :
    next.pending.Perm g.pending ∨ (context.admits tx = true ∧ next.pending.Perm (g.pending ++ [tx])) := by
  unfold gather at run
  split at run
  · cases run
    exact Or.inl (List.Perm.refl _)
  · rename_i kept
    have admitted : context.admits tx = true := by
      simpa [MinerContext.admits, not_or] using kept
    obtain ⟨⟨scan, fFound⟩, _, run⟩ := bind_eq_ok.mp run
    cases fFound with
    | false =>
        cases run
        have popped : waiting (g.vOrphan ++ [none]) = waiting g.vOrphan := by
          rw [waiting, List.filterMap_append]
          exact List.append_nil _
        left
        unfold PoolLists.pending
        split <;> simp [popped]
    | true =>
        obtain ⟨nValueOut, _, run⟩ := bind_eq_ok.mp run
        obtain ⟨nFee, _, run⟩ := bind_eq_ok.mp run
        cases orphan : scan.porphan with
        | none =>
            simp only [orphan, pure_eq_ok] at run
            subst run
            refine Or.inr ⟨admitted, ?_⟩
            simp only [PoolLists.pending, List.map_append, List.map_singleton, List.append_assoc]
            exact List.perm_append_comm.append_left _
        | some setDependsOn =>
            simp only [orphan, pure_eq_ok] at run
            subst run
            by_cases empty : setDependsOn = ∅
            · exact Or.inl (by simp [PoolLists.pending, waiting, waitingTransaction, empty])
            · exact Or.inr ⟨admitted, by simp [PoolLists.pending, waiting, waitingTransaction, empty]⟩

/-- The first loop puts each transaction of the pool into the queue or the orphans once at most. -/
theorem gatherAll_pending (run : gatherAll context = .ok g) : ∃ start : List CTransaction,
    start.Sublist (context.mempool.mapTx.toList.map Prod.snd) ∧ (∀ tx ∈ start, context.admits tx = true) ∧
      g.pending.Perm start := by
  refine foldlM_relation (fun txs before after => ∃ start : List CTransaction, start.Sublist txs ∧
    (∀ tx ∈ start, context.admits tx = true) ∧ after.pending.Perm (before.pending ++ start)) ?_ ?_ run
  · exact fun before => ⟨[], List.Sublist.refl _, by simp, by simp⟩
  · rintro tx rest before between after step ⟨start, sublist, admitted, perm⟩
    rcases gather_pending step with same | ⟨admits, more⟩
    · exact ⟨start, sublist.cons tx, admitted, perm.trans (same.append_right start)⟩
    · refine ⟨tx :: start, sublist.cons_cons tx, ?_, ?_⟩
      · exact List.forall_mem_cons.mpr ⟨admits, admitted⟩
      · rw [List.append_cons]
        exact perm.trans (more.append_right start)

end

/-! ## The queue -/

/-- Only the queue and the orphans change, and `out` leaves them. -/
structure Shuffles (s : Assembly) (out : List CTransaction) (next : Assembly) : Prop where
  frame : next = { s with
    vOrphan := next.vOrphan, vecPriority := next.vecPriority, fSortedByFee := next.fSortedByFee }
  pending : (out ++ next.pending).Perm s.pending

namespace Shuffles

variable {s between next : Assembly} {out more : List CTransaction}

theorem refl (s : Assembly) : Shuffles s [] s :=
  ⟨rfl, List.Perm.refl _⟩

theorem trans (first : Shuffles s out between) (second : Shuffles between more next) :
    Shuffles s (out ++ more) next := by
  refine ⟨by rw [second.frame, first.frame], ?_⟩
  rw [List.append_assoc]
  exact (second.pending.append_left out).trans first.pending

variable [HeapLibrary]

open HeapLibrary

theorem of_release {hash : UInt256} {id : Nat} (run : release hash s id = .ok next) : Shuffles s [] next := by
  simp only [release, bind_eq_ok, expect_eq_ok, Option.join_eq_some_iff] at run
  obtain ⟨porphan, found, run⟩ := run
  have exchange := filterMap_set_perm waitingTransaction
    (some { porphan with setDependsOn := porphan.setDependsOn.erase hash }) found
  split at run
  · cases run
    exact refl s
  · rename_i nonempty
    simp only [waitingTransaction, nonempty, if_false] at exchange
    split at run
    · rename_i empty
      cases run
      refine ⟨rfl, ?_⟩
      simp only [empty, if_true, Option.toList_none, List.append_nil, Option.toList_some] at exchange ⊢
      have pushed := (pushHeap_perm (txPriorityCompare s.fSortedByFee) (s.vecPriority ++ [porphan.entry])).map
        TxPriority.ptx
      refine (pushed.append_right _).trans ?_
      rw [List.map_append, List.append_assoc]
      exact (List.perm_append_comm.trans exchange).append_left _
    · rename_i waits
      cases run
      simp only [waits, if_false, List.perm_append_right_iff] at exchange
      exact ⟨rfl, exchange.append_left _⟩

theorem of_releases {hash : UInt256} {ids : List Nat} (run : ids.foldlM (release hash) s = .ok next) :
    Shuffles s [] next :=
  foldlM_relation (fun _ s next => Shuffles s [] next) refl (fun _ _ _ _ _ step later => (of_release step).trans later)
    run

theorem prioritise (s : Assembly) (entry : TxPriority) : Shuffles s [] (prioritise s entry) := by
  unfold BitCrystal.prioritise
  split
  · exact ⟨rfl, ((makeHeap_perm _ s.vecPriority).map TxPriority.ptx).append_right _⟩
  · exact refl s

theorem popFront {entry : TxPriority} {others : List TxPriority} (queue : s.vecPriority = entry :: others) :
    Shuffles s [entry.ptx]
      { s with vecPriority := (popHeap (txPriorityCompare s.fSortedByFee) (entry :: others)).dropLast } := by
  obtain ⟨left, popped, perm⟩ := popHeap_front (txPriorityCompare s.fSortedByFee) entry others
  refine ⟨rfl, ?_⟩
  rw [Assembly.pending, Assembly.pending, queue, popped, List.dropLast_concat]
  exact ((perm.map TxPriority.ptx).cons entry.ptx).append_right _

end Shuffles

/-! ## What is in the block -/

variable [Hashing] [ScriptMachine]

section

omit [DoubleMath]

/-- What is known of a transaction that passes the tests. -/
structure Adding (context : MinerContext) (view : CoinsView) (tx : CTransaction) (added : Addition) : Prop where
  available : tx.haveInputs view = true
  fees : ∃ nValueIn nValueOut, tx.getValueIn view = .ok nValueIn ∧ tx.getValueOut = .ok nValueOut ∧
    subInt64 nValueIn nValueOut = .ok added.nTxFees
  sigOps : ∃ nP2SHSigOps, tx.getP2SHSigOpCount view = .ok nP2SHSigOps ∧
    added.nTxSigOps = tx.getLegacySigOpCount + nP2SHSigOps
  inputs : ∃ checks, tx.checkInputs context.mapBlockIndex view true SCRIPT_VERIFY_P2SH false = .ok checks
  coins : ∃ txundo, tx.updateCoins view context.nHeight tx.getHash = .ok (added.view, txundo)

theorem Adding.of_tryTransaction {context : MinerContext} {nBlockSigOps : Nat} {view : CoinsView}
    {tx : CTransaction} {added : Addition} (run : tryTransaction context nBlockSigOps view tx = .ok (some added)) :
    Adding context view tx added ∧ nBlockSigOps + added.nTxSigOps < MAX_BLOCK_SIGOPS := by
  unfold tryTransaction at run
  split at run
  · rename_i available
    obtain ⟨nValueIn, valueIn, run⟩ := bind_eq_ok.mp run
    obtain ⟨nValueOut, valueOut, run⟩ := bind_eq_ok.mp run
    obtain ⟨nTxFees, fees, run⟩ := bind_eq_ok.mp run
    obtain ⟨nP2SHSigOps, sigOps, run⟩ := bind_eq_ok.mp run
    simp only at run
    split at run
    · simp at run
    · rename_i within
      split at run
      · split at run <;> simp at run
      · rename_i checks inputs
        obtain ⟨⟨after, txundo⟩, coins, run⟩ := bind_eq_ok.mp run
        cases run
        exact ⟨⟨available, ⟨nValueIn, nValueOut, valueIn, valueOut, fees⟩, ⟨nP2SHSigOps, sigOps, rfl⟩,
          ⟨checks, inputs⟩, ⟨txundo, coins⟩⟩, Nat.lt_of_not_le within⟩
  · simp at run

/-- Transactions with what each adds to a block, one view after the other. -/
inductive Packed (context : MinerContext) : List (CTransaction × Addition) → CoinsView → Prop where
  | nothing : Packed context [] context.pcoinsTip
  | snoc {entries : List (CTransaction × Addition)} {view : CoinsView} {tx : CTransaction} {added : Addition}
      (packed : Packed context entries view) (adding : Adding context view tx added) :
      Packed context (entries ++ [(tx, added)]) added.view

end

/-- The block holds what has left the queue and was not left out, within the limits. -/
structure Fills (context : MinerContext) (start : List CTransaction) (entries : List (CTransaction × Addition))
    (s : Assembly) : Prop where
  packed : Packed context entries s.view
  vtx : s.vtx = entries.map Prod.fst
  perm : ∃ left, (s.vtx ++ (left ++ s.pending)).Perm start
  size : s.nBlockSize = 1000 + (s.vtx.map CTransaction.nTxSize).sum
  sizeLimit : s.vtx ≠ [] → s.nBlockSize < context.miner.nBlockMaxSize
  sigOps : s.nBlockSigOps = 100 + (entries.map fun entry => entry.2.nTxSigOps).sum
  sigOpsLimit : s.nBlockSigOps < MAX_BLOCK_SIGOPS
  fees : (entries.map fun entry => entry.2.nTxFees).foldlM addInt64 0 = .ok s.nFees

section

variable {context : MinerContext} {start : List CTransaction} {entries : List (CTransaction × Addition)}
  {s next : Assembly}

theorem Fills.shuffles {out : List CTransaction} (fills : Fills context start entries s)
    (shuffles : Shuffles s out next) : Fills context start entries next := by
  obtain ⟨left, perm⟩ := fills.perm
  have pending : ∃ left, (s.vtx ++ (left ++ next.pending)).Perm start := by
    refine ⟨left ++ out, List.Perm.trans ?_ perm⟩
    rw [List.append_assoc]
    exact (shuffles.pending.append_left left).append_left s.vtx
  rw [shuffles.frame] at pending ⊢
  exact { fills with perm := pending }

theorem Fills.adding {tx : CTransaction} {added : Addition} {nFees : Int} (fills : Fills context start entries s)
    (takes : Shuffles s [tx] next) (within : s.nBlockSize + tx.nTxSize < context.miner.nBlockMaxSize)
    (adding : Adding context s.view tx added) (sigOps : s.nBlockSigOps + added.nTxSigOps < MAX_BLOCK_SIGOPS)
    (fees : addInt64 s.nFees added.nTxFees = .ok nFees) :
    Fills context start (entries ++ [(tx, added)]) (next.adding tx added nFees) := by
  obtain ⟨left, perm⟩ := fills.perm
  have moved : ((s.vtx ++ [tx]) ++ (left ++ next.pending)).Perm start := by
    refine List.Perm.trans ?_ perm
    rw [List.append_assoc]
    refine List.Perm.append_left _ ?_
    show (tx :: (left ++ next.pending)).Perm (left ++ s.pending)
    exact List.perm_middle.symm.trans (takes.pending.append_left left)
  rw [takes.frame] at moved ⊢
  refine ⟨fills.packed.snoc adding, ?_, ⟨left, moved⟩, ?_, fun _ => within, ?_, sigOps, ?_⟩
  · simp [Assembly.adding, fills.vtx]
  · simp [Assembly.adding, fills.size, Nat.add_assoc]
  · simp [Assembly.adding, fills.sigOps, Nat.add_assoc]
  · rw [List.map_append]
    exact foldlM_append_eq_ok.mpr ⟨s.nFees, fills.fees, foldlM_cons_eq_ok.mpr ⟨nFees, fees, rfl⟩⟩

variable [HeapLibrary] {mapDependers : UInt256 → List Nat}

theorem Fills.consider {rest : Assembly} {entry : TxPriority} (fills : Fills context start entries s)
    (takes : Shuffles s [entry.ptx] rest) (run : consider context mapDependers rest entry = .ok next) :
    ∃ more, Fills context start (entries ++ more) next := by
  unfold BitCrystal.consider at run
  split at run
  · cases run
    exact ⟨[], by simpa using fills.shuffles takes⟩
  · rename_i within
    have sorted := takes.trans (Shuffles.prioritise rest entry)
    rw [List.append_nil] at sorted
    obtain ⟨result, tried, run⟩ := bind_eq_ok.mp run
    have size : s.nBlockSize = rest.nBlockSize := by rw [takes.frame]
    have sigOps : (prioritise rest entry).nBlockSigOps = s.nBlockSigOps := by rw [sorted.frame]
    have view : (prioritise rest entry).view = s.view := by rw [sorted.frame]
    have fees : (prioritise rest entry).nFees = s.nFees := by rw [sorted.frame]
    rw [sigOps, view] at tried
    cases result with
    | none =>
        cases run
        exact ⟨[], by simpa using fills.shuffles sorted⟩
    | some added =>
        obtain ⟨nFees, sum, run⟩ := bind_eq_ok.mp run
        obtain ⟨adding, below⟩ := Adding.of_tryTransaction tried
        simp only [overLimits, Bool.or_eq_true, not_or, decide_eq_true_eq, Nat.not_le] at within
        rw [fees] at sum
        exact ⟨_, (fills.adding sorted (size ▸ within.1.1) adding below sum).shuffles (.of_releases run)⟩

theorem Fills.fillBlock {room : Nat} (fills : Fills context start entries s)
    (run : fillBlock context mapDependers room s = .ok next) :
    ∃ more, Fills context start (entries ++ more) next := by
  induction room generalizing s entries with
  | zero => contradiction
  | succ room ih =>
      unfold BitCrystal.fillBlock at run
      split at run
      · cases run
        exact ⟨[], by simpa using fills⟩
      · rename_i entry others queue
        obtain ⟨between, turn, remaining⟩ := bind_eq_ok.mp run
        obtain ⟨first, fills⟩ := fills.consider (.popFront queue) turn
        obtain ⟨more, fills⟩ := ih fills remaining
        exact ⟨first ++ more, List.append_assoc _ _ _ ▸ fills⟩

end

/-! ## The whole selection -/

theorem PoolLists.fills [HeapLibrary] {g : PoolLists} (context : MinerContext) {start : List CTransaction}
    (pending : g.pending.Perm start) : Fills context start [] (g.assembly context.pcoinsTip) := by
  have heap := (HeapLibrary.makeHeap_perm (txPriorityCompare false) g.vecPriority).map TxPriority.ptx
  exact ⟨.nothing, rfl, ⟨[], (heap.append_right (waiting g.vOrphan)).trans pending⟩, rfl, fun some => absurd rfl some,
    rfl, show 100 < MAX_BLOCK_SIGOPS by decide, rfl⟩

omit [DoubleMath] [ScriptMachine] in
theorem hashes_nodup {pool : CTxMemPool}
    (keyed : ∀ (hash : UInt256) (tx : CTransaction), pool.mapTx[hash]? = some tx → tx.getHash = hash) :
    ((pool.mapTx.toList.map Prod.snd).map CTransaction.getHash).Nodup := by
  have keys : (pool.mapTx.toList.map Prod.snd).map CTransaction.getHash = pool.mapTx.toList.map Prod.fst := by
    rw [List.map_map]
    refine List.map_congr_left fun entry member => ?_
    exact keyed _ _ (Std.ExtTreeMap.mem_toList_iff_getElem?_eq_some.mp member)
  rw [keys]
  exact toList_keys_nodup _

section

variable {context : MinerContext}

omit [DoubleMath] in
theorem Packed.dwindles {entries : List (CTransaction × Addition)} {view : CoinsView}
    (packed : Packed context entries view) {txid : UInt256}
    (other : txid ∉ (entries.map Prod.fst).map CTransaction.getHash) :
    context.pcoinsTip.Dwindles view txid := by
  induction packed with
  | nothing => exact .refl _ _
  | snoc packed adding ih =>
      rw [List.map_append, List.map_append, List.mem_append, not_or] at other
      obtain ⟨txundo, coins⟩ := adding.coins
      exact (ih other.1).trans (.of_updateCoins coins (by simpa using other.2))

omit [DoubleMath] [ScriptMachine] in
/-- The transaction is in the chain or in the block. -/
def Supplied (context : MinerContext) (vtx : List CTransaction) (txid : UInt256) : Prop :=
  context.pcoinsTip.haveCoins txid = true ∨ txid ∈ vtx.map CTransaction.getHash

omit [DoubleMath] in
theorem Packed.ordered {entries : List (CTransaction × Addition)} {view : CoinsView}
    (packed : Packed context entries view) (loose : ∀ entry ∈ entries, entry.1.isCoinBase = false)
    {pre post : List CTransaction} {tx : CTransaction} (order : entries.map Prod.fst = pre ++ tx :: post) :
    ∀ txin ∈ tx.vin, Supplied context pre txin.prevout.hash := by
  induction packed generalizing post with
  | nothing => simp at order
  | @snoc entries view last added packed adding ih =>
      rw [List.map_append, List.map_singleton] at order
      rcases List.eq_nil_or_concat post with rfl | ⟨middle, final, rfl⟩
      · obtain ⟨rfl, same⟩ := List.append_inj' order rfl
        obtain rfl : last = tx := List.head_eq_of_cons_eq same
        intro txin member
        have noCoinBase := loose _ (List.mem_append_right _ (List.mem_singleton_self _))
        obtain ⟨txout, present⟩ := CTransaction.haveInputs_iff.mp adding.available txin
          (by simpa [CTransaction.spentInputs, noCoinBase] using member)
        obtain ⟨coins, found, _⟩ := CoinsView.output_eq_some.mp present
        rw [Supplied, or_iff_not_imp_right]
        intro fresh
        obtain ⟨before, chain, _⟩ := packed.dwindles fresh coins found
        simp [CoinsView.haveCoins, chain]
      · rw [List.concat_eq_append, ← List.cons_append, ← List.append_assoc] at order
        obtain ⟨front, _⟩ := List.append_inj' order rfl
        exact ih (fun entry member => loose entry (List.mem_append_left _ member)) front

/-- What CreateNewBlock has put together before ConnectBlock tests it. -/
structure Assembled (context : MinerContext) (pubkey : CPubKey) (template : CBlockTemplate)
    (entries : List (CTransaction × Addition)) (view : CoinsView) (nFees : Int) : Prop where
  packed : Packed context entries view
  others : template.others = entries.map Prod.fst
  distinct : (template.others.map CTransaction.getHash).Nodup
  stored : ∀ tx ∈ template.others, context.mempool.mapTx[tx.getHash]? = some tx
  admitted : ∀ tx ∈ template.others, context.admits tx = true
  size : template.others ≠ [] →
    1000 + (template.others.map CTransaction.nTxSize).sum < context.miner.nBlockMaxSize
  sigOps : 100 + (entries.map fun entry => entry.2.nTxSigOps).sum < MAX_BLOCK_SIGOPS
  fees : (entries.map fun entry => entry.2.nTxFees).foldlM addInt64 0 = .ok nFees
  value : ∃ nValue, getBlockValue context.nHeight nFees = .ok nValue ∧ template.nValue = Int64.ofInt nValue
  scriptSig : template.scriptSig = [CScript.OP_0, CScript.OP_0]
  scriptPubKey : template.scriptPubKey = CScript.pushData pubkey.vchPubKey ++ [CScript.OP_CHECKSIG]

theorem newTemplate_assembled [HeapLibrary] {pubkey : CPubKey} {template : CBlockTemplate}
    (keyed : ∀ (hash : UInt256) (tx : CTransaction), context.mempool.mapTx[hash]? = some tx → tx.getHash = hash)
    (run : newTemplate context pubkey = .ok template) :
    ∃ entries view nFees, Assembled context pubkey template entries view nFees := by
  obtain ⟨s, selected, run⟩ := bind_eq_ok.mp run
  simp only [createNewBlock, bind_eq_ok, pure_eq_ok] at run
  obtain ⟨header, _, nBits, _, nValue, value, _, _, rfl⟩ := run
  obtain ⟨g, gathered, filled⟩ := bind_eq_ok.mp selected
  obtain ⟨start, sublist, admitted, pending⟩ := gatherAll_pending gathered
  obtain ⟨entries, fills⟩ := (g.fills context pending).fillBlock filled
  obtain ⟨left, perm⟩ := fills.perm
  have inside : ∀ tx ∈ s.vtx, tx ∈ start := fun tx member => perm.subset (List.mem_append_left _ member)
  have fits : s.vtx ≠ [] → 1000 + (s.vtx.map CTransaction.nTxSize).sum < context.miner.nBlockMaxSize :=
    fills.size ▸ fills.sizeLimit
  refine ⟨entries, s.view, s.nFees, fills.packed, fills.vtx, ?_, ?_, fun tx member => admitted tx (inside tx member),
    fits, fills.sigOps ▸ fills.sigOpsLimit, fills.fees, ⟨nValue, value, rfl⟩, rfl, rfl⟩
  · have all := (perm.map CTransaction.getHash).nodup_iff.mpr ((hashes_nodup keyed).sublist (sublist.map _))
    rw [List.map_append] at all
    exact (List.nodup_append.mp all).1
  · intro tx member
    obtain ⟨entry, inPool, rfl⟩ := List.mem_map.mp (sublist.subset (inside tx member))
    have stored := Std.ExtTreeMap.mem_toList_iff_getElem?_eq_some.mp inPool
    rw [keyed _ _ stored]
    exact stored

end

end

end BitCrystal
