import BitCrystal.ChainCoins

namespace BitCrystal

open Data BlockMap

/-! # The blocks that the coins name

Coins are kept with the height of the block that has made them. Undo data carries the
height of coins that a block has spent, and brings it back when the block is disconnected. -/

def CoinsView.Placed (places : UInt256 → Int → Prop) (view : CoinsView) : Prop :=
  ∀ txid entry, view.entry txid = some entry → places txid entry.nHeight

/-- In a block of which some transactions have been connected, these have its height. -/
def During (places : UInt256 → Int → Prop) (nHeight : Int) (txids : List UInt256) (txid : UInt256) (height : Int) :
    Prop :=
  if txid ∈ txids then height = nHeight else places txid height

/-- The undo data of an input, if it has a height, has one that fits. -/
def Names (places : UInt256 → Int → Prop) (input : CTxIn × CTxInUndo) : Prop :=
  input.2.nHeight ≠ 0 → places input.1.prevout.hash input.2.nHeight

variable {places : UInt256 → Int → Prop} {before after view : CoinsView}

theorem During.nil {nHeight : Int} : During places nHeight [] = places := by
  funext txid height
  exact if_neg List.not_mem_nil

theorem During.own {nHeight : Int} {txids : List UInt256} {txid : UInt256} (member : txid ∈ txids) : During places nHeight txids txid nHeight := by
  rw [During, if_pos member]

theorem During.more {nHeight height : Int} {txids : List UInt256} {txid other : UInt256} (different : txid ≠ other) :
    During places nHeight (txids ++ [other]) txid height ↔ During places nHeight txids txid height := by
  simp only [During, List.mem_append, List.mem_singleton, different, or_false]

theorem CoinsView.Placed.setCoins (placed : view.Placed places) {txid : UInt256} {coins : CCoins}
    (fits : coins.isPruned = false → places txid coins.nHeight) : (view.setCoins txid coins).Placed places := by
  intro other entry found
  rw [entry_setCoins] at found
  by_cases same : other = txid
  · subst same
    rw [Function.update_self, CCoins.entry_eq_some_iff] at found
    rw [← found.2.2.2.1]
    exact fits found.1
  · rw [Function.update_of_ne same] at found
    exact placed other entry found

theorem CoinsView.Placed.coins (placed : view.Placed places) {txid : UInt256} {coins : CCoins}
    (found : view.coins txid = some coins) (unspent : coins.isPruned = false) : places txid coins.nHeight := by
  have entry := CCoins.entry_of_unspent unspent
  rw [← CoinsView.entry_of_coins found] at entry
  exact placed txid _ entry

theorem CoinsView.Placed.reload [PubKeys] (placed : view.Placed places) (wellFormed : view.WellFormed) :
    view.reload.Placed places := by
  intro txid entry found
  rw [wellFormed.entry_reload] at found
  obtain ⟨kept, present, rfl⟩ := Option.map_eq_some_iff.mp found
  exact placed txid kept present

/-! ## Connecting -/

theorem CTransaction.spendInputs_placed {inputs : List CTxIn} {undos : CTxUndo}
    (run : CTransaction.spendInputs inputs before = .ok (after, undos)) (placed : before.Placed places) :
    after.Placed places ∧ ∀ input ∈ inputs.zip undos, Names places input := by
  induction inputs generalizing before undos with
  | nil =>
      cases run
      exact ⟨placed, by simp⟩
  | cons txin rest ih =>
      obtain ⟨coins, spent, undo, vprevout, found, step, remaining, rfl⟩ := spendInputs_cons_eq_ok.mp run
      have spends := CCoins.spend_eq_some step
      have fits := placed.coins found (CCoins.not_isPruned_of_output spends.txout)
      obtain ⟨kept, others⟩ := ih remaining (placed.setCoins fun _ => by rwa [spends.metadata.2.1])
      refine ⟨kept, fun input member => ?_⟩
      rw [List.zip_cons_cons] at member
      rcases List.mem_cons.mp member with rfl | later
      · intro recorded
        cases pruned : spent.isPruned with
        | true =>
            change places txin.prevout.hash undo.nHeight
            rwa [(spends.last pruned).2.1]
        | false => exact absurd (spends.notLast pruned).1 recorded
      · exact others input later

/-- The undo data of the transactions that follow some of a block -/
def UndosName [Hashing] (places : UInt256 → Int → Prop) (nHeight : Int) :
    List UInt256 → List (CTransaction × Option CTxUndo) → Prop
  | _, [] => True
  | txids, (tx, txundo) :: rest =>
      (∀ vprevout, txundo = some vprevout → ∀ input ∈ tx.vin.zip vprevout, Names (During places nHeight txids) input) ∧
        UndosName places nHeight (txids ++ [tx.getHash]) rest

section

variable [Hashing] {nHeight : Int} {txids : List UInt256} {entries : List (CTransaction × Option CTxUndo)}

theorem CoinsView.Placed.replace (placed : view.Placed (During places nHeight txids)) (tx : CTransaction)
    {coins : CCoins} (made : coins.isPruned = false → coins.nHeight = nHeight) :
    (view.setCoins tx.getHash coins).Placed (During places nHeight (txids ++ [tx.getHash])) := by
  intro txid entry found
  rw [CoinsView.entry_setCoins] at found
  by_cases same : txid = tx.getHash
  · subst same
    rw [Function.update_self, CCoins.entry_eq_some_iff] at found
    rw [← found.2.2.2.1, made found.1]
    exact During.own (by simp)
  · rw [Function.update_of_ne same] at found
    exact (During.more same).mpr (placed txid entry found)

theorem Applied.placed (applied : Applied nHeight entries before after)
    (placed : before.Placed (During places nHeight txids)) :
    after.Placed (During places nHeight (txids ++ entries.map fun entry => entry.1.getHash)) ∧
      UndosName places nHeight txids entries := by
  induction applied generalizing txids with
  | nil view =>
      rw [List.map_nil, List.append_nil]
      exact ⟨placed, trivial⟩
  | @cons tx txundo kept rest before spent after inputs keeps remaining ih =>
      obtain ⟨spentPlaced, named⟩ := CTransaction.spendInputs_placed inputs placed
      obtain ⟨last, others⟩ := ih (spentPlaced.replace tx fun _ => rfl)
      rw [List.append_assoc, List.singleton_append] at last
      refine ⟨last, fun vprevout some input member => ?_, others⟩
      rw [keeps] at some
      cases coinBase : tx.isCoinBase with
      | true =>
          rw [coinBase] at some
          contradiction
      | false =>
          simp only [coinBase, Bool.false_eq_true, if_false, Option.some.injEq] at some
          subst some
          rw [CTransaction.spentInputs, coinBase] at named
          exact named input member

theorem UndosName.onDisk (named : UndosName places nHeight txids entries) :
    UndosName places nHeight txids (entries.map diskEntry) := by
  induction entries generalizing txids with
  | nil => trivial
  | cons entry rest ih =>
      obtain ⟨tx, txundo⟩ := entry
      refine ⟨fun vprevout some input member => ?_, ih named.2⟩
      obtain ⟨written, recorded, rfl⟩ := Option.map_eq_some_iff.mp some
      rw [List.zip_map_right] at member
      obtain ⟨original, inWritten, rfl⟩ := List.mem_map.mp member
      exact named.1 written recorded original inWritten

/-! ## Disconnecting -/

omit [Hashing] in
theorem disconnectInputs_placed {inputs : List (CTxIn × CTxInUndo)} {s : CoinsView × Bool}
    (clean : (inputs.foldr disconnectInput s).2 = true) (placed : s.1.Placed places)
    (named : ∀ input ∈ inputs, Names places input) : (inputs.foldr disconnectInput s).1.Placed places := by
  induction inputs with
  | nil => exact placed
  | cons input rest ih =>
      obtain ⟨txin, undo⟩ := input
      rw [List.foldr_cons, disconnectInput_eq, Bool.and_eq_true] at clean
      have reached := ih clean.1 fun other member => named other (List.mem_cons_of_mem _ member)
      have expected := clean.2
      rw [List.foldr_cons, disconnectInput_eq]
      refine reached.setCoins fun _ => ?_
      unfold CCoins.undoSpend at expected ⊢
      by_cases recorded : undo.nHeight ≠ 0
      · simp only [if_pos recorded]
        exact named _ List.mem_cons_self recorded
      · -- without a height in the undo data the coins are still there, with theirs
        simp only [if_neg recorded, Bool.and_eq_true, Bool.not_eq_true'] at expected ⊢
        cases found : (rest.foldr disconnectInput s).1.coins txin.prevout.hash with
        | none => simp [found, CCoins.isPruned, CCoins.empty] at expected
        | some coins =>
            rw [found] at expected
            have kept := reached.coins found expected.1
            exact kept

theorem disconnectTransaction_placed {tx : CTransaction} {txundo : Option CTxUndo} {fClean : Bool}
    {restored : CoinsView} (run : disconnectTransaction nHeight (tx, txundo) (view, fClean) = .ok (restored, true))
    (placed : view.Placed (During places nHeight (txids ++ [tx.getHash])))
    (named : ∀ vprevout, txundo = some vprevout → ∀ input ∈ tx.vin.zip vprevout,
      Names (During places nHeight txids) input) :
    restored.Placed (During places nHeight txids) := by
  have emptied : (view.setCoins tx.getHash CCoins.empty).Placed (During places nHeight txids) := by
    intro txid entry found
    rw [CoinsView.entry_setCoins] at found
    by_cases same : txid = tx.getHash
    · rw [same, Function.update_self] at found
      cases found
    · rw [Function.update_of_ne same] at found
      exact (During.more same).mp (placed txid entry found)
  cases txundo with
  | none =>
      simp only [disconnectTransaction, Except.ok.injEq, Prod.mk.injEq] at run
      obtain ⟨rfl, -⟩ := run
      exact emptied
  | some vprevout =>
      simp only [disconnectTransaction] at run
      split at run
      · generalize start : (view.setCoins tx.getHash CCoins.empty, _) = s at run
        rw [Except.ok.injEq] at run
        have restores := disconnectInputs_placed (by rw [run]) (by rw [← start]; exact emptied) (named vprevout rfl)
        rw [run] at restores
        exact restores
      · contradiction

theorem disconnectTransactions_placed {restored : CoinsView}
    (run : entries.foldrM (disconnectTransaction nHeight) (view, true) = .ok (restored, true))
    (placed : view.Placed (During places nHeight (txids ++ entries.map fun entry => entry.1.getHash)))
    (named : UndosName places nHeight txids entries) : restored.Placed (During places nHeight txids) := by
  induction entries generalizing txids restored with
  | nil =>
      cases run
      rw [List.map_nil, List.append_nil] at placed
      exact placed
  | cons entry rest ih =>
      obtain ⟨tx, txundo⟩ := entry
      rw [List.foldrM_cons, bind_eq_ok] at run
      obtain ⟨⟨reached, fClean⟩, first, step⟩ := run
      obtain ⟨rfl, -⟩ := disconnectTransaction_flag step
      rw [List.map_cons, ← List.singleton_append, ← List.append_assoc] at placed
      exact disconnectTransaction_placed step (ih first placed named.2) named.1

end

/-! ## One block -/

section

variable [Hashing] {pindex : CBlockIndex} {block : CBlock}

/-- Undo data of the block as the files have it, above blocks of which the coins name `places` -/
def CBlock.UndoNames (block : CBlock) (places : UInt256 → Int → Prop) (nHeight : Int) (blockUndo : CBlockUndo) : Prop :=
  UndosName places nHeight [] (block.vtx.zip (none :: blockUndo.map some))

theorem disconnectBlock_placed [PubKeys] {undoFiles : CDiskBlockPos → Bytes} {restored : CoinsView}
    (run : block.disconnectBlock pindex undoFiles view = .ok (restored, true))
    (placed : view.Placed (During places pindex.nHeight (block.vtx.map CTransaction.getHash)))
    (named : ∀ pos prev blockUndo, pindex.getUndoPos = some pos → pindex.pprev = some prev →
      CBlockUndo.readFromDisk (undoFiles pos) prev = some blockUndo → block.UndoNames places pindex.nHeight blockUndo) :
    restored.Placed places := by
  simp only [CBlock.disconnectBlock, bind_eq_ok, expect_eq_ok, require_eq_ok, pure_eq_ok, Prod.mk.injEq, Prod.exists,
    exists_const] at run
  obtain ⟨_, pos, place, prev, up, blockUndo, read, length, last, fClean, loop, rfl, rfl⟩ := run
  have txs : (block.vtx.zip (none :: blockUndo.map some)).map (fun entry => entry.1.getHash) =
      block.vtx.map CTransaction.getHash := by
    have firsts : (block.vtx.zip (none :: blockUndo.map some)).map Prod.fst = block.vtx :=
      List.map_fst_zip (by rw [List.length_cons, List.length_map, length])
    have hashes := congrArg (List.map CTransaction.getHash) firsts
    rwa [List.map_map] at hashes
  rw [← txs, ← List.nil_append (List.map _ _)] at placed
  have kept := disconnectTransactions_placed loop placed (named pos prev blockUndo place up read)
  rw [During.nil] at kept
  exact kept

variable [ScriptMachine] {settings : Settings} {mapBlockIndex : BlockMap} {connected : CoinsView}
  {blockundo : Option CBlockUndo}

theorem connectBlock_placed (notGenesis : block.getHash ≠ hashGenesisBlock)
    (height : 0 < pindex.nHeight ∧ pindex.nHeight < 2 ^ 31)
    (connect : block.connectBlock settings mapBlockIndex pindex view false = .ok (connected, blockundo))
    (wellFormed : view.WellFormed) (placed : view.Placed places) :
    connected.Placed (During places pindex.nHeight (block.vtx.map CTransaction.getHash)) ∧ block.Checked ∧
      ∃ vtxundo, blockundo = some vtxundo ∧ vtxundo.Storable ∧
        block.UndoNames places pindex.nHeight vtxundo.onDisk := by
  rcases CBlock.connectBlock_cases connect with ⟨genesis, _⟩ | ⟨last, connects, undone, rfl⟩
  · exact absurd genesis notGenesis
  · obtain ⟨coinbase, entries, recorded⟩ := connects.recorded
    obtain ⟨-, storable⟩ := connects.undo_storable recorded height wellFormed
    have start : view.Placed (During places pindex.nHeight []) := by
      rw [During.nil]
      exact placed
    obtain ⟨kept, named⟩ := recorded.applied.placed start
    have txids : [] ++ ((coinbase, none) :: entries).map (fun entry => entry.1.getHash) =
        block.vtx.map CTransaction.getHash := by
      rw [recorded.vtx, List.nil_append, List.map_cons, List.map_cons, List.map_map]
      rfl
    have pairs : block.vtx.zip (none :: last.vtxundo.onDisk.map some) =
        ((coinbase, none) :: entries).map diskEntry := by
      rw [recorded.vtx, recorded.vtxundo, List.zip_cons_cons, (zip_onDisk recorded.kept).2]
      rfl
    rw [txids] at kept
    refine ⟨kept, connects.checked, last.vtxundo, undone, storable, ?_⟩
    rw [CBlock.UndoNames, pairs]
    exact named.onDisk

end

/-! ## The highest block with a transaction -/

namespace BlockMap

section

variable [Hashing]

/-- A block above the genesis block, whose own transactions are not connected, has the transaction. -/
def Holds (map : BlockMap) (blockFiles : CDiskBlockPos → Option CBlock) (hash txid : UInt256) : Prop :=
  map.parent hash ≠ none ∧
    ∃ block, map.fileBlock blockFiles hash = some block ∧ txid ∈ block.vtx.map CTransaction.getHash

/-- The highest block with the transaction on the branch of a block -/
structure Stands (map : BlockMap) (blockFiles : CDiskBlockPos → Option CBlock) (top txid hash : UInt256) : Prop where
  above : Ancestor map.parent hash top
  holds : map.Holds blockFiles hash txid
  highest : ∀ other, Ancestor map.parent other top → map.Holds blockFiles other txid →
    map.height other ≤ map.height hash

def StandsAt (map : BlockMap) (blockFiles : CDiskBlockPos → Option CBlock) (top txid : UInt256) (height : Int) : Prop :=
  ∃ hash, map.Stands blockFiles top txid hash ∧ map.height hash = height

variable {map other : BlockMap} {blockFiles : CDiskBlockPos → Option CBlock} {top hash txid : UInt256} {block : CBlock}

theorem SameShape.holds_eq (same : SameShape map other) (blockFiles : CDiskBlockPos → Option CBlock) :
    other.Holds blockFiles = map.Holds blockFiles := by
  funext hash txid
  rw [Holds, Holds, same.parent_eq, same.fileBlock_eq]

theorem SameShape.stands_iff (same : SameShape map other) :
    other.Stands blockFiles top txid hash ↔ map.Stands blockFiles top txid hash := by
  constructor
  · rintro ⟨above, holds, highest⟩
    rw [same.parent_eq] at above highest
    rw [same.holds_eq] at holds highest
    rw [same.height_eq] at highest
    exact ⟨above, holds, highest⟩
  · rintro ⟨above, holds, highest⟩
    rw [← same.parent_eq] at above highest
    rw [← same.holds_eq] at holds highest
    rw [← same.height_eq] at highest
    exact ⟨above, holds, highest⟩

theorem SameShape.standsAt_eq (same : SameShape map other) (blockFiles : CDiskBlockPos → Option CBlock) :
    other.StandsAt blockFiles = map.StandsAt blockFiles := by
  funext top txid height
  simp only [StandsAt, same.stands_iff, same.height_eq]

theorem Stands.of_holds (tree : map.Tree) (holds : map.Holds blockFiles hash txid) :
    map.Stands blockFiles hash txid hash :=
  ⟨.refl hash, holds, fun _ above _ => above.height_le tree.graded⟩

theorem Stands.eq_of_holds (tree : map.Tree) {found : UInt256} (stands : map.Stands blockFiles hash txid found)
    (holds : map.Holds blockFiles hash txid) : found = hash :=
  stands.above.eq_of_height_le tree.graded (stands.highest hash (.refl hash) holds)

theorem stands_iff_of_not_holds {found : UInt256} (up : map.parent hash = some top)
    (without : ¬map.Holds blockFiles hash txid) :
    map.Stands blockFiles hash txid found ↔ map.Stands blockFiles top txid found := by
  have below : ∀ other, Ancestor map.parent other hash → map.Holds blockFiles other txid →
      Ancestor map.parent other top := by
    intro other above holds
    cases above.cases_parent with
    | inl same =>
        rw [same] at holds
        exact absurd holds without
    | inr further =>
        obtain ⟨parent, up', rest⟩ := further
        rw [up] at up'
        cases up'
        exact rest
  constructor
  · intro stands
    exact ⟨below found stands.above stands.holds, stands.holds,
      fun other above holds => stands.highest other (above.trans (.of_parent up)) holds⟩
  · intro stands
    exact ⟨stands.above.trans (.of_parent up), stands.holds,
      fun other above holds => stands.highest other (below other above holds) holds⟩

/-- The coins of a branch, as connecting the block leaves them, are those of the branch of the block. -/
theorem during_eq (tree : map.Tree) (up : map.parent hash = some top) (stored : map.fileBlock blockFiles hash = some block) :
    During (map.StandsAt blockFiles top) (map.height hash) (block.vtx.map CTransaction.getHash) =
      map.StandsAt blockFiles hash := by
  have holds : ∀ txid, map.Holds blockFiles hash txid ↔ txid ∈ block.vtx.map CTransaction.getHash := by
    intro txid
    constructor
    · rintro ⟨-, other, found, member⟩
      rw [stored] at found
      cases found
      exact member
    · intro member
      exact ⟨by rw [up]; simp, block, stored, member⟩
  funext txid height
  apply propext
  by_cases member : txid ∈ block.vtx.map CTransaction.getHash
  · rw [During, if_pos member]
    have here := (holds txid).mpr member
    constructor
    · rintro rfl
      exact ⟨hash, .of_holds tree here, rfl⟩
    · rintro ⟨found, stands, rfl⟩
      rw [stands.eq_of_holds tree here]
  · rw [During, if_neg member]
    have without := mt (holds txid).mp member
    exact exists_congr fun found => and_congr_left fun _ => (stands_iff_of_not_holds up without).symm

end

end BlockMap

end BitCrystal
