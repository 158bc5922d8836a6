import BitCrystal.UpdateCoins

namespace BitCrystal

open Data

/-! # When connecting a block keeps every unspent output -/

section

variable [Hashing]

namespace CBlock

/-- The transactions that ConnectBlock applies; it skips those of the genesis block. -/
def connectedTxs (block : CBlock) : List CTransaction :=
  if block.getHash = hashGenesisBlock then [] else block.vtx

/-- An unspent output that no input of the block spends is there afterwards. -/
def KeepsUnspent (block : CBlock) (view connected : CoinsView) : Prop :=
  ∀ place txout, view.outputAt place = some txout → place ∉ spentPlaces block.connectedTxs →
    connected.outputAt place = some txout

/-- No transaction replaces an entry with unspent outputs: whenever UpdateCoins
calls SetCoins, the entry under the transaction's hash is pruned or missing. -/
def NeverReplaces [ScriptMachine] (settings : Settings) (mapBlockIndex : BlockMap) (block : CBlock)
    (pindex : CBlockIndex) (view : CoinsView) : Prop :=
  ∀ before tx after, block.connectedTxs = before ++ tx :: after →
    ∀ s, before.foldlM (connectTransaction settings mapBlockIndex pindex) ⟨view, 0, 0, [], []⟩ = .ok s →
      ∀ spent txundo, CTransaction.spendInputs tx.spentInputs s.view = .ok (spent, txundo) →
        spent.hasUnspent tx.getHash = false

/-- Every output that is unspent under the hash of a transaction of the block is
spent by that transaction or by an earlier one of the block. -/
def OverwriteFree (block : CBlock) (view : CoinsView) : Prop :=
  ∀ before tx after, block.connectedTxs = before ++ tx :: after →
    ∀ nPos, (view.outputAt (tx.getHash, nPos)).isSome →
      (tx.getHash, nPos) ∈ spentPlaces (before ++ [tx])

end CBlock

theorem Applied.outputAt_own {nHeight : Int} {entries : List (CTransaction × Option CTxUndo)}
    {view reached spent : CoinsView} {tx : CTransaction} {txundo : CTxUndo}
    (applied : Applied nHeight entries view reached)
    (fresh : tx.getHash ∉ (entries.map Prod.fst).map CTransaction.getHash)
    (inputs : CTransaction.spendInputs tx.spentInputs reached = .ok (spent, txundo)) (nPos : Nat) :
    spent.outputAt (tx.getHash, nPos) =
      if (tx.getHash, nPos) ∈ spentPlaces (entries.map Prod.fst ++ [tx]) then none
      else view.outputAt (tx.getHash, nPos) := by
  have other : ∀ entry ∈ entries, (tx.getHash, nPos).1 ≠ entry.1.getHash := by
    intro entry member same
    rw [show tx.getHash = entry.1.getHash from same] at fresh
    exact fresh (List.mem_map_of_mem (List.mem_map_of_mem member))
  rw [CTransaction.spendInputs_outputAt inputs, applied.outputAt_other other]
  simp only [spentPlaces_append, List.mem_append, mem_spentPlaces_single]
  by_cases own : (tx.getHash, nPos) ∈ tx.spentInputs.map (·.prevout.place)
  · simp only [own, if_true, or_true]
  · simp only [own, if_false, or_false]

end

section

variable [Hashing] [ScriptMachine] {settings : Settings} {mapBlockIndex : BlockMap}
  {pindex : CBlockIndex} {block : CBlock} {view connected : CoinsView} {last : ConnectState}

theorem CBlock.Connects.stop (connects : block.Connects settings mapBlockIndex pindex view last)
    {before after : List CTransaction} {tx : CTransaction} (split : block.vtx = before ++ tx :: after) :
    ∃ s spent txundo,
      before.foldlM (connectTransaction settings mapBlockIndex pindex) ⟨view, 0, 0, [], []⟩ = .ok s ∧
        CTransaction.spendInputs tx.spentInputs s.view = .ok (spent, txundo) := by
  have loop := connects.loop
  rw [split, List.foldlM_append, bind_eq_ok] at loop
  obtain ⟨s, first, rest⟩ := loop
  obtain ⟨next, step, _⟩ := foldlM_cons_eq_ok.mp rest
  obtain ⟨spent, txundo, inputs, _⟩ := connectTransaction_applied step
  exact ⟨s, spent, txundo, first, inputs⟩

theorem CBlock.Connects.outputAt_own (connects : block.Connects settings mapBlockIndex pindex view last)
    {before after : List CTransaction} {tx : CTransaction} (split : block.vtx = before ++ tx :: after)
    {s : ConnectState} {spent : CoinsView} {txundo : CTxUndo}
    (run : before.foldlM (connectTransaction settings mapBlockIndex pindex) ⟨view, 0, 0, [], []⟩ = .ok s)
    (inputs : CTransaction.spendInputs tx.spentInputs s.view = .ok (spent, txundo)) (nPos : Nat) :
    spent.outputAt (tx.getHash, nPos) =
      if (tx.getHash, nPos) ∈ spentPlaces (before ++ [tx]) then none
      else view.outputAt (tx.getHash, nPos) := by
  obtain ⟨entries, names, applied, _⟩ := connectLoop_applied run
  have distinct := connects.checked.hashes_nodup
  rw [split, List.map_append, List.map_cons] at distinct
  have fresh : tx.getHash ∉ (entries.map Prod.fst).map CTransaction.getHash := by
    rw [names]
    intro member
    exact (List.nodup_append.mp distinct).2.2 _ member _ List.mem_cons_self rfl
  rw [applied.outputAt_own fresh inputs nPos, names]

theorem CBlock.Connects.neverReplaces_iff
    (connects : block.Connects settings mapBlockIndex pindex view last) :
    block.NeverReplaces settings mapBlockIndex pindex view ↔ block.OverwriteFree view := by
  have txs : block.connectedTxs = block.vtx := if_neg connects.notGenesis
  constructor
  · intro never before tx after split nPos unspent
    rw [txs] at split
    obtain ⟨s, spent, txundo, run, inputs⟩ := connects.stop split
    have pruned := never before tx after (txs.trans split) s run spent txundo inputs
    have gone := CoinsView.entry_eq_none_iff.mp (CoinsView.hasUnspent_eq_false_iff.mp pruned) nPos
    rw [connects.outputAt_own split run inputs] at gone
    by_contra kept
    rw [if_neg kept] at gone
    simp [gone] at unspent
  · intro free before tx after split s run spent txundo inputs
    rw [txs] at split
    rw [CoinsView.hasUnspent_eq_false_iff, CoinsView.entry_eq_none_iff]
    intro nPos
    rw [connects.outputAt_own split run inputs]
    split_ifs with member
    · rfl
    · rw [← Option.not_isSome_iff_eq_none]
      intro unspent
      exact member (free before tx after (txs.trans split) nPos unspent)

theorem CBlock.Connects.keepsUnspent (connects : block.Connects settings mapBlockIndex pindex view last)
    (free : block.OverwriteFree view) : block.KeepsUnspent view last.view := by
  have txs : block.connectedTxs = block.vtx := if_neg connects.notGenesis
  obtain ⟨entries, names, applied, _⟩ := connectLoop_applied connects.loop
  intro place txout unspent notSpent
  rw [txs] at notSpent
  have other : ∀ entry ∈ entries, place.1 ≠ entry.1.getHash := by
    intro entry member same
    have inBlock : entry.1 ∈ block.vtx := names ▸ List.mem_map_of_mem member
    obtain ⟨before, after, split⟩ := List.append_of_mem inBlock
    have own : place = (entry.1.getHash, place.2) := Prod.ext same rfl
    rw [own] at unspent notSpent
    have spent := free before entry.1 after (txs.trans split) place.2 (by rw [unspent]; rfl)
    apply notSpent
    rw [split, List.append_cons, spentPlaces_append]
    exact List.mem_append_left _ spent
  rw [applied.outputAt_other other, names, if_neg notSpent, unspent]

/-- Connecting a block destroys no unspent output exactly when every output that
is unspent under the hash of one of its transactions is spent, by the time that
transaction is added, by the block itself. -/
theorem connectBlock_keeps_unspent_iff {blockundo : Option CBlockUndo}
    (connect : block.connectBlock settings mapBlockIndex pindex view false = .ok (connected, blockundo)) :
    (block.KeepsUnspent view connected ∧ block.NeverReplaces settings mapBlockIndex pindex view) ↔
      block.OverwriteFree view := by
  rcases CBlock.connectBlock_cases connect with ⟨genesis, _, rfl⟩ | ⟨s, connects, _, rfl⟩
  · have txs : block.connectedTxs = [] := if_pos genesis
    constructor
    · intro _ before tx after split
      simp [txs] at split
    · intro _
      refine ⟨fun place txout unspent _ => unspent, fun before tx after split => ?_⟩
      simp [txs] at split
  · rw [connects.neverReplaces_iff]
    constructor
    · intro both
      exact both.2
    · intro free
      exact ⟨connects.keepsUnspent free, free⟩

end

/-! ## A small network for examples -/

namespace Sample

/-- Every script succeeds. -/
scoped instance scripts : ScriptMachine where
  evalScript _ _ _ _ _ _ := some [[1]]
  solver _ := none

def settings : Settings := ⟨true, false, 0, 0, 0, 2000000000⟩

/-- A coinbase whose script says nothing about the height of its block. -/
def coinbase : CTransaction :=
  ⟨1, [⟨COutPoint.null, [0x01, 0x07], 0xffffffff⟩], [⟨500000, [0x51]⟩], 0, []⟩

def block (nonce : UInt32) (txs : List CTransaction) : CBlock :=
  let block : CBlock := ⟨⟨1, 0, 0, 1400000000, 0x1e0fffff, nonce⟩, txs⟩
  { block with hashMerkleRoot := block.buildMerkleTree }

/-- The entry of a known block: the nonce tells its height and its parent. -/
def index (nonce : UInt32) : CBlockIndex :=
  { CBlockIndex.ofHeader (block nonce []).toCBlockHeader with
    phashBlock := some (BitVec.ofNat 256 nonce.toNat)
    pprev := some (BitVec.ofNat 256 (nonce.toNat - 1))
    nHeight := nonce.toNat - 4 }

def blocks : BlockMap := fun hash => some (index (UInt32.ofNat hash.toNat))

/-- A view without coins on top of the block with nonce 4. -/
def emptyView : CoinsView := ⟨fun _ => none, some 4⟩

abbrev connect (nonce : UInt32) (txs : List CTransaction) (view : CoinsView) :
    Except Failure (CoinsView × Option CBlockUndo) :=
  (block nonce txs).connectBlock settings blocks (index nonce) view false

end Sample

open Sample in
theorem connectBlock_keeps_unspent_sample : ∃ connected blockundo,
    connect 5 [coinbase] emptyView = .ok (connected, blockundo) ∧
      (block 5 [coinbase]).KeepsUnspent emptyView connected ∧
      (block 5 [coinbase]).NeverReplaces settings blocks (index 5) emptyView := by
  obtain ⟨⟨connected, blockundo⟩, run⟩ :=
    ok_of_isOk (show (connect 5 [coinbase] emptyView).isOk = true by decide +kernel)
  have free : (block 5 [coinbase]).OverwriteFree emptyView := by
    intro before tx after split nPos unspent
    simp [emptyView, CoinsView.outputAt] at unspent
  exact ⟨connected, blockundo, run, (connectBlock_keeps_unspent_iff run).mpr free⟩

namespace Sample

theorem connect_coinbase_twice : ∃ first second firstUndo secondUndo,
    connect 5 [coinbase] emptyView = .ok (first, firstUndo) ∧
      connect 6 [coinbase] first = .ok (second, secondUndo) ∧
      first.hasUnspent coinbase.getHash = true := by
  obtain ⟨⟨first, firstUndo⟩, firstRun⟩ :=
    ok_of_isOk (show (connect 5 [coinbase] emptyView).isOk = true by decide +kernel)
  have secondOk : ((connect 5 [coinbase] emptyView).bind fun result =>
      connect 6 [coinbase] result.1).isOk = true := by decide +kernel
  have unspent : (connect 5 [coinbase] emptyView).toOption.map
      (fun result => result.1.hasUnspent coinbase.getHash) = some true := by decide +kernel
  rw [firstRun] at secondOk unspent
  simp only [Except.bind] at secondOk
  obtain ⟨⟨second, secondUndo⟩, secondRun⟩ := ok_of_isOk secondOk
  exact ⟨first, second, firstUndo, secondUndo, firstRun, secondRun, Option.some.inj unspent⟩

end Sample

open Sample in
/-- The second of two known blocks with the same coinbase replaces the unspent
entry of the first. -/
theorem connectBlock_duplicate_coinbase : ∃ first second firstUndo secondUndo,
    connect 5 [coinbase] emptyView = .ok (first, firstUndo) ∧
      connect 6 [coinbase] first = .ok (second, secondUndo) ∧
      (index 6).phashBlock = some (block 6 [coinbase]).getHash ∧
      ¬ ((block 6 [coinbase]).KeepsUnspent first second ∧
        (block 6 [coinbase]).NeverReplaces settings blocks (index 6) first) := by
  obtain ⟨first, second, firstUndo, secondUndo, firstRun, secondRun, unspent⟩ := connect_coinbase_twice
  refine ⟨first, second, firstUndo, secondUndo, firstRun, secondRun, by decide, ?_⟩
  rintro ⟨_, never⟩
  have noInputs : coinbase.spentInputs = [] := by decide
  have replaced := never [] coinbase [] (by decide) ⟨first, 0, 0, [], []⟩ rfl first []
    (by rw [noInputs]; rfl)
  exact Bool.noConfusion (unspent.symm.trans replaced)

end BitCrystal
