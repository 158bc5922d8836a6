import BitCrystal.BlockByHeightRuns
import BitCrystal.BlockSerialize
import BitCrystal.CoinHeightRuns
import BitCrystal.Data.Tables
import BitCrystal.ParallelChecks

namespace BitCrystal

open Data BlockMap

/-! # The transaction index

ConnectBlock writes for each transaction where its bytes are in the block files, and
GetTransaction reads them there, or scans the block of the height that the coins name. -/

abbrev TxIndex := UInt256 → Option CDiskTxPos

/-- `file >> header; fseek(file, postx.nTxOffset, SEEK_CUR); file >> txOut;` -/
def readTransactionAt (file : Bytes) (nTxOffset : UInt32) : Option (CBlockHeader × CTransaction) := do
  let (header, rest) ← CBlockHeader.unserialize file
  let (txOut, _) ← CTransaction.unserialize (rest.drop nTxOffset.toNat)
  return (header, txOut)

theorem drop_flatMap {α β : Type} (write : α → List β) (values : List α) (i : Nat) :
    (values.flatMap write).drop ((values.take i).flatMap write).length = (values.drop i).flatMap write := by
  have whole : (values.take i).flatMap write ++ (values.drop i).flatMap write = values.flatMap write := by
    rw [← List.flatMap_append, List.take_append_drop]
  rw [← whole, List.drop_left]

/-- The globals that GetTransaction works on, with the bytes of the block files from each place on. -/
structure TransactionFinder where
  finder : BlockFinder
  txIndex : TxIndex
  diskFiles : CDiskBlockPos → Bytes

/-- No entry is lost. -/
def TxIndex.Keeps (txIndex after : TxIndex) : Prop :=
  ∀ txid, txIndex txid ≠ none → after txid ≠ none

theorem TxIndex.Keeps.refl (txIndex : TxIndex) : txIndex.Keeps txIndex :=
  fun _ => id

theorem TxIndex.Keeps.trans {txIndex after last : TxIndex} (first : txIndex.Keeps after) (second : after.Keeps last) : txIndex.Keeps last :=
  fun txid present => second txid (first txid present)

theorem TxIndex.Keeps.write (vPos : List (UInt256 × CDiskTxPos)) (txIndex : TxIndex) :
    txIndex.Keeps (writeTxIndex vPos txIndex) :=
  fun _ present => writeAll_ne_none (Or.inl present)

section

variable [Hashing]

/-- What is found at a place of the index; there is none when the function logs an error. -/
def readIndexed (diskFiles : CDiskBlockPos → Bytes) (hash : UInt256) (postx : CDiskTxPos) :
    Option (CTransaction × UInt256) := do
  let pos ← postx.pos
  let (header, txOut) ← readTransactionAt (diskFiles pos) postx.nTxOffset
  if txOut.getHash = hash then some (txOut, header.getHash) else none

/-- The scan of the block that FindBlockByHeight has returned -/
def scanBlock (chain : ChainState) (pindexSlow hash : UInt256) : Option (CTransaction × UInt256) := do
  let index ← chain.mapBlockIndex pindexSlow
  let block ← readFromDisk chain.blockFiles index
  let tx ← block.vtx.find? fun tx => tx.getHash = hash
  let hashBlock ← index.phashBlock
  return (tx, hashBlock)

namespace TransactionFinder

/-- The height under which the coins of a transaction are kept, or -1. -/
def coinsHeight (s : TransactionFinder) (hash : UInt256) : Int :=
  ((s.finder.chain.pcoinsTip.coins hash).map CCoins.nHeight).getD (-1)

/-- The part of GetTransaction that locates the block by the coin database -/
def slowTransaction (s : TransactionFinder) (fAllowSlow : Bool) (hash : UInt256) :
    Except Failure (TransactionFinder × Option (CTransaction × UInt256)) :=
  if fAllowSlow ∧ 0 < s.coinsHeight hash then do
    let (finder, pindexSlow) ← s.finder.findBlockByHeight (s.coinsHeight hash)
    return ({ s with finder }, scanBlock finder.chain pindexSlow hash)
  else return (s, none)

/-- GetTransaction, where it returns true with `txOut` and `hashBlock`. The memory pool leaves
`hashBlock` as the caller has set it. -/
def getTransaction (s : TransactionFinder) (fTxIndex fAllowSlow : Bool) (hash hashBlock : UInt256) :
    Except Failure (TransactionFinder × Option (CTransaction × UInt256)) :=
  match s.finder.chain.mempool.mapTx[hash]? with
  | some tx => .ok (s, some (tx, hashBlock))
  | none =>
      if fTxIndex then
        match s.txIndex hash with
        | some postx => .ok (s, readIndexed s.diskFiles hash postx)
        | none => s.slowTransaction fAllowSlow hash
      else s.slowTransaction fAllowSlow hash

end TransactionFinder

theorem readFromDisk_place {blockFiles : CDiskBlockPos → Option CBlock} {pindex : CBlockIndex} {block : CBlock}
    (read : readFromDisk blockFiles pindex = some block) :
    ∃ pos, pindex.getBlockPos = some pos ∧ blockFiles pos = some block := by
  simp only [readFromDisk, Option.bind_eq_bind, Option.bind_eq_some_iff, Option.ite_none_right_eq_some,
    Option.some.injEq] at read
  obtain ⟨pos, place, stored, found, _, rfl⟩ := read
  exact ⟨pos, place, found⟩

/-! ## The bytes of a block at an offset -/

theorem vPosFrom_keys (pos : Option CDiskBlockPos) (nTxOffset : UInt32) (txs : List CTransaction) :
    (vPosFrom pos nTxOffset txs).map Prod.fst = txs.map CTransaction.getHash := by
  induction txs generalizing nTxOffset with
  | nil => rfl
  | cons tx rest ih => rw [vPosFrom, List.map_cons, List.map_cons, ih]

theorem vPosFrom_getElem? (pos : Option CDiskBlockPos) {nTxOffset : UInt32} {txs : List CTransaction} {i : Nat}
    {tx : CTransaction} (fits : nTxOffset.toNat + (txs.map CTransaction.getSerializeSize).sum < 2 ^ 32)
    (found : txs[i]? = some tx) : ∃ offset, (vPosFrom pos nTxOffset txs)[i]? = some (tx.getHash, ⟨pos, offset⟩) ∧
      offset.toNat = nTxOffset.toNat + ((txs.take i).flatMap CTransaction.serialize).length := by
  induction txs generalizing nTxOffset i with
  | nil => cases found
  | cons head rest ih =>
      rw [List.map_cons, List.sum_cons] at fits
      cases i with
      | zero =>
          cases found
          exact ⟨nTxOffset, rfl, rfl⟩
      | succ i =>
          have next : (nTxOffset + UInt32.ofNat head.getSerializeSize).toNat =
              nTxOffset.toNat + head.getSerializeSize := by
            rw [UInt32.toNat_add, UInt32.toNat_ofNat']
            omega
          have room : (nTxOffset + UInt32.ofNat head.getSerializeSize).toNat +
              (rest.map CTransaction.getSerializeSize).sum < 2 ^ 32 := by
            rw [next]
            omega
          obtain ⟨offset, there, length⟩ := ih room found
          refine ⟨offset, there, ?_⟩
          rw [length, next, List.take_succ_cons, List.flatMap_cons, List.length_append, CTransaction.serialize_length]
          omega

namespace CBlock

variable {block : CBlock} {pindex : CBlockIndex}

theorem vPos_keys (block : CBlock) (pindex : CBlockIndex) :
    (block.vPos pindex).map Prod.fst = block.vtx.map CTransaction.getHash :=
  vPosFrom_keys _ _ _

theorem Checked.vPos_points (checked : block.Checked) (pindex : CBlockIndex) {i : Nat} {tx : CTransaction}
    (found : block.vtx[i]? = some tx) :
    ∃ nTxOffset, (block.vPos pindex)[i]? = some (tx.getHash, ⟨pindex.getBlockPos, nTxOffset⟩) ∧
      (block.serialize.drop block.toCBlockHeader.serialize.length).drop nTxOffset.toNat =
        (block.vtx.drop i).flatMap CTransaction.serialize := by
  have size := checked.size_le
  rw [CBlock.getSerializeSize] at size
  have limit : MAX_BLOCK_SIZE < 2 ^ 32 := by decide
  have count : (UInt32.ofNat (getSizeOfCompactSize block.vtx.length)).toNat =
      (writeCompactSize block.vtx.length).length := by
    rw [UInt32.toNat_ofNat', writeCompactSize_length]
    omega
  have fits : (UInt32.ofNat (getSizeOfCompactSize block.vtx.length)).toNat +
      (block.vtx.map CTransaction.getSerializeSize).sum < 2 ^ 32 := by
    rw [count, writeCompactSize_length]
    omega
  obtain ⟨nTxOffset, there, length⟩ := vPosFrom_getElem? pindex.getBlockPos fits found
  refine ⟨nTxOffset, there, ?_⟩
  rw [CBlock.serialize, List.drop_left, writeVector, length, count, ← List.drop_drop, List.drop_left]
  exact drop_flatMap CTransaction.serialize block.vtx i

theorem Checked.readTransactionAt_eq (checked : block.Checked) (sized : block.Sized) (pindex : CBlockIndex)
    (rest : Bytes) {i : Nat} {tx : CTransaction} (found : block.vtx[i]? = some tx) :
    ∃ nTxOffset, (block.vPos pindex)[i]? = some (tx.getHash, ⟨pindex.getBlockPos, nTxOffset⟩) ∧
      readTransactionAt (block.serialize ++ rest) nTxOffset = some (block.toCBlockHeader, tx) := by
  obtain ⟨nTxOffset, there, points⟩ := checked.vPos_points pindex found
  refine ⟨nTxOffset, there, ?_⟩
  obtain ⟨within, same⟩ := List.getElem?_eq_some_iff.mp found
  have behind : block.vtx.drop i = tx :: block.vtx.drop (i + 1) := by rw [← same, List.drop_eq_getElem_cons]
  rw [CBlock.serialize, List.drop_left, behind, List.flatMap_cons] at points
  have inside : nTxOffset.toNat ≤ (writeVector CTransaction.serialize block.vtx).length := by
    by_contra beyond
    rw [List.drop_eq_nil_of_le (by omega)] at points
    have empty := congrArg List.length points
    rw [List.length_append, CTransaction.serialize_length] at empty
    have some_bytes : 0 < tx.getSerializeSize := by
      rw [CTransaction.getSerializeSize]
      omega
    rw [List.length_nil] at empty
    omega
  have header := block.toCBlockHeader.reads (writeVector CTransaction.serialize block.vtx ++ rest)
  have transaction := (CTransaction.reads_iff.mpr (sized.txs tx (List.mem_of_getElem? found)))
    ((block.vtx.drop (i + 1)).flatMap CTransaction.serialize ++ rest)
  rw [← List.append_assoc, ← points, ← List.drop_append_of_le_length inside] at transaction
  rw [readTransactionAt, CBlock.serialize, List.append_assoc, header]
  change (CTransaction.unserialize ((writeVector CTransaction.serialize block.vtx ++ rest).drop nTxOffset.toNat)).bind _ = _
  rw [transaction]
  rfl

end CBlock

/-! ## The index while blocks are connected -/

section

variable [PubKeys] [ScriptMachine] {env : Surroundings} {blockFiles : CDiskBlockPos → Option CBlock} {hash : UInt256}

/-- One turn of the loop over `vConnect`, with the transaction index -/
def connectTipStore (env : Surroundings) (blockFiles : CDiskBlockPos → Option CBlock) (hash : UInt256)
    (store : ConnectStore) : Step ConnectStore :=
  match store.winding.mapBlockIndex hash with
  | none => ⟨store, some (.undefined "SetBestChain")⟩
  | some pindex =>
      match readFromDisk blockFiles pindex with
      | none => ⟨store, some (.abort "Failed to read block")⟩
      | some block =>
          let connected := block.connectBlock env.settings store.winding.mapBlockIndex pindex store.winding.view false
          (block.finishConnect env hash pindex false store connected).andThen fun store =>
            ⟨{ store with winding := { store.winding with vDelete := store.winding.vDelete ++ block.vtx } }, none⟩

/-- The loop over `vConnect`, for what it leaves in the transaction index -/
def connectTipStores (env : Surroundings) (blockFiles : CDiskBlockPos → Option CBlock) :
    List UInt256 → ConnectStore → ConnectStore
  | [], store => store
  | hash :: rest, store =>
      let step := connectTipStore env blockFiles hash store
      match step.failure with
      | some _ => step.state
      | none => connectTipStores env blockFiles rest step.state

variable (env) (blockFiles) in
theorem connectTipStore_winding (hash : UInt256) (store : ConnectStore) :
    (connectTipStore env blockFiles hash store).state.winding = (connectTip env blockFiles hash store.winding).state ∧
      (connectTipStore env blockFiles hash store).failure = (connectTip env blockFiles hash store.winding).failure := by
  unfold connectTipStore connectTip
  cases known : store.winding.mapBlockIndex hash with
  | none => exact ⟨rfl, rfl⟩
  | some pindex =>
      dsimp only
      cases read : readFromDisk blockFiles pindex with
      | none => exact ⟨rfl, rfl⟩
      | some block =>
          dsimp only
          unfold CBlock.finishConnect
          cases block.connectBlock env.settings store.winding.mapBlockIndex pindex store.winding.view false with
          | error reason => exact ⟨rfl, rfl⟩
          | ok result =>
              obtain ⟨view, blockundo⟩ := result
              cases blockundo with
              | none => exact ⟨rfl, rfl⟩
              | some blockundo =>
                  simp only [Bool.false_eq_true, if_false, Step.andThen]
                  cases failed : (writeConnected env hash pindex blockundo store.winding).failure with
                  | some reason =>
                      dsimp only
                      exact ⟨rfl, failed.symm⟩
                  | none => exact ⟨rfl, rfl⟩

end

/-! ## Entries that point at their transactions -/

/-- A block in which the transaction with the id is read at the offset. -/
def CBlock.Finds (block : CBlock) (txid : UInt256) (nTxOffset : UInt32) : Prop :=
  ∃ tx ∈ block.vtx, tx.getHash = txid ∧
    (block.Sized → ∀ rest, readTransactionAt (block.serialize ++ rest) nTxOffset = some (block.toCBlockHeader, tx))

/-- Every entry leads to a block of the tree, in which it finds its transaction. -/
def TxIndex.Points (map : BlockMap) (blockFiles : CDiskBlockPos → Option CBlock) (txIndex : TxIndex) : Prop :=
  ∀ txid postx, txIndex txid = some postx → ∃ pos block, postx.pos = some pos ∧ blockFiles pos = some block ∧
    map block.getHash ≠ none ∧ block.Finds txid postx.nTxOffset

/-- A block that has been read and checked, and whose transactions are in the index if there is one. -/
def BlockMap.Covered (map : BlockMap) (blockFiles : CDiskBlockPos → Option CBlock) (fTxIndex : Bool) (txIndex : TxIndex)
    (hash : UInt256) : Prop :=
  ∃ index block, map hash = some index ∧ readFromDisk blockFiles index = some block ∧
    (fTxIndex = true → ∀ tx ∈ block.vtx, txIndex tx.getHash ≠ none)

variable {map other : BlockMap} {txIndex after : TxIndex} {fTxIndex : Bool} {index : CBlockIndex} {block : CBlock}
  {blockFiles : CDiskBlockPos → Option CBlock} {hash : UInt256}

theorem CBlock.Checked.finds (checked : block.Checked) (pindex : CBlockIndex) {txid : UInt256} {postx : CDiskTxPos}
    (member : (txid, postx) ∈ block.vPos pindex) :
    postx.pos = pindex.getBlockPos ∧ block.Finds txid postx.nTxOffset := by
  obtain ⟨i, there⟩ := List.mem_iff_getElem?.mp member
  have keys := congrArg (fun keys => keys[i]?) (block.vPos_keys pindex)
  simp only [List.getElem?_map, there, Option.map_some] at keys
  obtain ⟨tx, found, same⟩ := Option.map_eq_some_iff.mp keys.symm
  obtain ⟨nTxOffset, placed, _⟩ := checked.vPos_points pindex found
  rw [there, Option.some.injEq, Prod.mk.injEq] at placed
  obtain ⟨-, rfl⟩ := placed
  refine ⟨rfl, tx, List.mem_of_getElem? found, same, fun sized rest => ?_⟩
  obtain ⟨other, also, reads⟩ := checked.readTransactionAt_eq sized pindex rest found
  rw [there, Option.some.injEq, Prod.mk.injEq, CDiskTxPos.mk.injEq] at also
  rw [also.2.2]
  exact reads

theorem TxIndex.Points.write (points : txIndex.Points map blockFiles) (known : map block.getHash ≠ none)
    (checked : block.Checked) (read : readFromDisk blockFiles index = some block) :
    TxIndex.Points map blockFiles (writeTxIndex (block.vPos index) txIndex) := by
  intro txid postx found
  rcases writeAll_of_some found with written | before
  · obtain ⟨place, finds⟩ := checked.finds index written
    obtain ⟨pos, placed, stored⟩ := readFromDisk_place read
    exact ⟨pos, block, place.trans placed, stored, known, finds⟩
  · exact points txid postx before

theorem TxIndex.Points.shape (points : txIndex.Points map blockFiles) (same : SameShape map other) :
    txIndex.Points other blockFiles := by
  intro txid postx found
  obtain ⟨pos, block, place, stored, known, finds⟩ := points txid postx found
  exact ⟨pos, block, place, stored, fun missing => known (SameShape.none (Same.symm same) missing), finds⟩

theorem BlockMap.Covered.keeps (covered : map.Covered blockFiles fTxIndex txIndex hash) (keeps : txIndex.Keeps after) :
    map.Covered blockFiles fTxIndex after hash := by
  obtain ⟨index, block, known, read, entries⟩ := covered
  exact ⟨index, block, known, read, fun enabled tx member => keeps _ (entries enabled tx member)⟩

theorem writeTxIndex_covers (block : CBlock) (pindex : CBlockIndex) (txIndex : TxIndex) :
    ∀ tx ∈ block.vtx, writeTxIndex (block.vPos pindex) txIndex tx.getHash ≠ none := by
  intro tx member
  apply writeAll_ne_none
  right
  rw [block.vPos_keys]
  exact List.mem_map_of_mem member

variable [PubKeys] {env : Surroundings} {store : ConnectStore}

theorem finishConnect_txIndex (env : Surroundings) (hash : UInt256) (pindex : CBlockIndex) (store : ConnectStore)
    (result : Except Failure (CoinsView × Option CBlockUndo)) :
    let step := block.finishConnect env hash pindex false store result
    (step.state.txIndex = store.txIndex ∨
      (∃ view blockundo, result = .ok (view, some blockundo)) ∧ step.state.txIndex = writeTxIndex (block.vPos pindex) store.txIndex) ∧
    (step.failure = none → env.settings.fTxIndex = true → ∀ view blockundo, result = .ok (view, some blockundo) →
      step.state.txIndex = writeTxIndex (block.vPos pindex) store.txIndex) := by
  unfold CBlock.finishConnect
  dsimp only
  split
  · exact ⟨Or.inl rfl, fun ended => by cases ended⟩
  · exact ⟨Or.inl rfl, fun _ _ _ _ ended => by cases ended⟩
  · rename_i view blockundo
    simp only [Bool.false_eq_true, if_false]
    cases failed : (writeConnected env hash pindex blockundo store.winding).failure with
    | some reason => exact ⟨Or.inl rfl, fun ended => by cases ended⟩
    | none =>
        cases enabled : env.settings.fTxIndex with
        | false => exact ⟨Or.inl rfl, fun _ also => by cases also⟩
        | true => exact ⟨Or.inr ⟨⟨view, blockundo, rfl⟩, rfl⟩, fun _ _ _ _ _ => rfl⟩

variable [ScriptMachine]

variable (env) in
theorem connectTipStore_index (tree : store.winding.mapBlockIndex.Tree)
    (points : TxIndex.Points store.winding.mapBlockIndex blockFiles store.txIndex) (notGenesis : hash ≠ hashGenesisBlock) :
    let step := connectTipStore env blockFiles hash store
    TxIndex.Points store.winding.mapBlockIndex blockFiles step.state.txIndex ∧
      TxIndex.Keeps store.txIndex step.state.txIndex ∧
      (step.failure = none →
        store.winding.mapBlockIndex.Covered blockFiles env.settings.fTxIndex step.state.txIndex hash) := by
  dsimp only
  unfold connectTipStore
  cases known : store.winding.mapBlockIndex hash with
  | none => exact ⟨points, .refl _, fun ended => by cases ended⟩
  | some pindex =>
      dsimp only
      cases read : readFromDisk blockFiles pindex with
      | none => exact ⟨points, .refl _, fun ended => by cases ended⟩
      | some block =>
          dsimp only
          generalize result : block.connectBlock env.settings store.winding.mapBlockIndex pindex store.winding.view false =
            connected
          obtain ⟨_, own⟩ := readFromDisk_eq_some read
          rw [tree.owned hash pindex known, Option.some.injEq] at own
          obtain ⟨written, covers⟩ : (_ ∨ _) ∧ _ :=
            finishConnect_txIndex env hash pindex store connected
          have moved : TxIndex.Points store.winding.mapBlockIndex blockFiles
                (block.finishConnect env hash pindex false store connected).state.txIndex ∧
              TxIndex.Keeps store.txIndex (block.finishConnect env hash pindex false store connected).state.txIndex := by
            rcases written with same | ⟨⟨view, blockundo, rfl⟩, same⟩
            · rw [same]
              exact ⟨points, .refl _⟩
            · rw [same]
              have checked : block.Checked := by
                rcases CBlock.connectBlock_cases result with ⟨_, undone, _⟩ | ⟨last, connects, _⟩
                · contradiction
                · exact connects.checked
              refine ⟨points.write ?_ checked read, .write _ _⟩
              rw [own, known]
              exact Option.some_ne_none pindex
          unfold Step.andThen
          split
          · rename_i reason failed
            exact ⟨moved.1, moved.2, fun ended => by rw [failed] at ended; contradiction⟩
          · rename_i ended
            refine ⟨moved.1, moved.2, fun _ => ⟨pindex, block, known, read, fun enabled => ?_⟩⟩
            cases connected with
            | error reason =>
                unfold CBlock.finishConnect at ended
                contradiction
            | ok accepted =>
                obtain ⟨view, blockundo⟩ := accepted
                cases undone : blockundo with
                | none =>
                    rcases CBlock.connectBlock_cases result with ⟨genesis, _⟩ | ⟨last, connects, written, _⟩
                    · exact absurd (own.symm.trans genesis) notGenesis
                    · rw [undone] at written
                      contradiction
                | some vtxundo =>
                    subst undone
                    have wrote := covers ended enabled view vtxundo rfl
                    rw [wrote]
                    exact writeTxIndex_covers block pindex store.txIndex

end

/-! ## The place of a block -/

namespace CBlockIndex

/-- An entry without its successor and its status, but for the place of the block. -/
def located (index : CBlockIndex) : CBlockIndex :=
  { index with nStatus := index.nStatus &&& BLOCK_HAVE_DATA, nUndoPos := 0, pnext := none }

theorem located_record (index : CBlockIndex) : index.record.located = index.located := by
  rw [located, record_have (by decide)]
  rfl

theorem located_getBlockPos (index : CBlockIndex) : index.located.getBlockPos = index.getBlockPos := by
  simp only [getBlockPos, located, UInt32.and_assoc, UInt32.and_self]

end CBlockIndex

theorem KeptByConnecting.located : KeptByConnecting CBlockIndex.located := by
  constructor
  · intro index nUndoPos
    simp only [CBlockIndex.located, and_or_of_disjoint (show BLOCK_HAVE_UNDO &&& BLOCK_HAVE_DATA = 0 by decide)]
  · intro index
    have masks : ~~~BLOCK_VALID_MASK &&& BLOCK_HAVE_DATA = BLOCK_HAVE_DATA := by decide
    simp only [CBlockIndex.located, and_or_of_disjoint (show BLOCK_VALID_SCRIPTS &&& BLOCK_HAVE_DATA = 0 by decide),
      UInt32.and_assoc, masks]

abbrev BlockMap.SameLocations : BlockMap → BlockMap → Prop := Same CBlockIndex.located

theorem readFromDisk_located [Hashing] {blockFiles : CDiskBlockPos → Option CBlock} {index other : CBlockIndex}
    (same : index.located = other.located) : readFromDisk blockFiles index = readFromDisk blockFiles other := by
  have place : index.located.getBlockPos = other.located.getBlockPos := congrArg CBlockIndex.getBlockPos same
  rw [CBlockIndex.located_getBlockPos, CBlockIndex.located_getBlockPos] at place
  have hash : index.located.phashBlock = other.located.phashBlock := congrArg CBlockIndex.phashBlock same
  change index.phashBlock = other.phashBlock at hash
  unfold readFromDisk
  rw [place, hash]

section

variable [Hashing] {map other : BlockMap} {txIndex : TxIndex} {fTxIndex : Bool}
  {blockFiles : CDiskBlockPos → Option CBlock} {hash : UInt256}

theorem BlockMap.Covered.same (covered : map.Covered blockFiles fTxIndex txIndex hash) (same : SameLocations map other) :
    other.Covered blockFiles fTxIndex txIndex hash := by
  obtain ⟨index, block, known, read, entries⟩ := covered
  obtain ⟨after, found, equal⟩ := Same.entry (Same.symm same) known
  exact ⟨after, block, found, (readFromDisk_located equal.symm).symm ▸ read, entries⟩

variable [PubKeys] [ScriptMachine] {env : Surroundings} {store : ConnectStore}

variable (store) in
theorem connectTipStores_index {hashes : List UInt256} (tree : store.winding.mapBlockIndex.Tree)
    (points : TxIndex.Points store.winding.mapBlockIndex blockFiles store.txIndex)
    (notGenesis : ∀ hash ∈ hashes, hash ≠ hashGenesisBlock) :
    let last := connectTipStores env blockFiles hashes store
    TxIndex.Points store.winding.mapBlockIndex blockFiles last.txIndex ∧ TxIndex.Keeps store.txIndex last.txIndex ∧
      ((connectTips env blockFiles hashes store.winding).2 = none → ∀ hash ∈ hashes,
        store.winding.mapBlockIndex.Covered blockFiles env.settings.fTxIndex last.txIndex hash) := by
  dsimp only
  induction hashes generalizing store with
  | nil => exact ⟨points, .refl _, fun _ _ member => absurd member List.not_mem_nil⟩
  | cons hash rest ih =>
      obtain ⟨stay, keeps, covers⟩ := connectTipStore_index env tree points (notGenesis hash List.mem_cons_self)
      obtain ⟨state, failure⟩ := connectTipStore_winding env blockFiles hash store
      have same : SameLocations store.winding.mapBlockIndex
          (connectTip env blockFiles hash store.winding).state.mapBlockIndex :=
        connectTip_same .located store.winding
      have shape : SameShape store.winding.mapBlockIndex
          (connectTip env blockFiles hash store.winding).state.mapBlockIndex :=
        (connectTip_writes hash store.winding).shape
      rw [connectTipStores, connectTips, ← failure]
      cases ended : (connectTipStore env blockFiles hash store).failure with
      | some reason => exact ⟨stay, keeps, fun ended => by cases ended⟩
      | none =>
          dsimp only
          rw [← state] at same shape ⊢
          obtain ⟨others, more, later⟩ := ih _ (SameShape.tree shape tree) (stay.shape shape) fun other member =>
            notGenesis other (List.mem_cons_of_mem hash member)
          refine ⟨others.shape (Same.symm shape), keeps.trans more, fun all other member => ?_⟩
          rcases List.mem_cons.mp member with rfl | inRest
          · exact (covers ended).keeps more
          · exact (later all other inRest).same (Same.symm same)

end

end BitCrystal
