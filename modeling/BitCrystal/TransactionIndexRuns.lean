import BitCrystal.TransactionIndex

namespace BitCrystal

open Data BlockMap

/-! # GetTransaction over runs of SetBestChain -/

theorem BlockFinder.Navigable.cache {s : BlockFinder} (navigable : s.Navigable) {hash best : UInt256}
    (tip : s.chain.pindexBest = some best) (above : Ancestor s.chain.mapBlockIndex.parent hash best) :
    Navigable { s with pblockindexFBBHLast := some hash } :=
  { navigable with
    linked := navigable.linked
    cached := by
      intro last cached
      cases cached
      exact ⟨best, tip, above⟩ }

namespace TransactionFinder

section

variable [Hashing] [PubKeys] [ScriptMachine]

/-- The transaction index after a call of SetBestChain -/
def indexAfter (env : Surroundings) (s : TransactionFinder) (pindexNew : UInt256) : TxIndex :=
  let chain := s.finder.chain
  match chain.unwind pindexNew with
  | .error _ => s.txIndex
  | .ok (switch, u) =>
      (connectTipStores env chain.blockFiles switch.vConnect
        ⟨⟨u.view, [], chain.mapBlockIndex, chain.undoFiles⟩, s.txIndex⟩).txIndex

/-- A call of SetBestChain that returns -/
def setBestChain (reorganise : ChainState → Outcome) (env : Surroundings) (s : TransactionFinder)
    (pindexNew : UInt256) : Except Failure TransactionFinder := do
  let finder ← s.finder.setBestChain reorganise env pindexNew
  return { s with finder, txIndex := s.indexAfter env pindexNew }

def Stores (diskFiles : CDiskBlockPos → Bytes) (blockFiles : CDiskBlockPos → Option CBlock) : Prop :=
  ∀ pos block, blockFiles pos = some block → block.Sized ∧ ∃ rest, diskFiles pos = block.serialize ++ rest

/-- A node whose active chain is the genesis block, without coins and with an empty index. -/
structure Fresh (occurring : Set CTransaction) (s : TransactionFinder) : Prop where
  ready : s.finder.chain.Ready occurring
  rooted : s.finder.chain.mapBlockIndex.Rooted
  tip : s.finder.chain.pindexBest = some hashGenesisBlock
  height : s.finder.chain.nBestHeight = 0
  genesis : s.finder.pindexGenesisBlock = some hashGenesisBlock
  uncached : s.finder.pblockindexFBBHLast = none
  spent : ∀ txid, s.finder.chain.pcoinsTip.entry txid = none
  stored : ∀ hash, s.finder.chain.mapBlockIndex.parent hash ≠ none →
    ∃ block, s.finder.chain.mapBlockIndex.fileBlock s.finder.chain.blockFiles hash = some block
  unrecorded : ∀ hash index, s.finder.chain.mapBlockIndex hash = some index → index.getUndoPos = none
  empty : ∀ txid, s.txIndex txid = none
  stores : Stores s.diskFiles s.finder.chain.blockFiles

/-- New blocks are in the block files, behind blocks that were known. -/
structure Received (occurring : Set CTransaction) (s : TransactionFinder) (after : ChainState)
    (diskFiles : CDiskBlockPos → Bytes) : Prop where
  grows : s.finder.chain.Grows occurring after
  height : after.nBestHeight = s.finder.chain.nBestHeight
  rooted : after.mapBlockIndex.Rooted
  stored : ∀ hash, after.mapBlockIndex.parent hash ≠ none →
    ∃ block, after.mapBlockIndex.fileBlock after.blockFiles hash = some block
  unrecorded : ∀ hash index, after.mapBlockIndex hash = some index → s.finder.chain.mapBlockIndex hash = none →
    index.getUndoPos = none
  stores : Stores diskFiles after.blockFiles

/-- The states that a node reaches, with one setting of -txindex, while it receives blocks, switches
its best chain and looks transactions up. -/
inductive FinderRun (occurring : Set CTransaction) (fTxIndex : Bool) : TransactionFinder → Prop
  | start {s : TransactionFinder} (fresh : s.Fresh occurring) : FinderRun occurring fTxIndex s
  | receive {s : TransactionFinder} {after : ChainState} {diskFiles : CDiskBlockPos → Bytes}
      (run : FinderRun occurring fTxIndex s) (received : s.Received occurring after diskFiles) :
      FinderRun occurring fTxIndex { s with finder := { s.finder with chain := after }, diskFiles }
  | setBestChain {s next : TransactionFinder} {reorganise : ChainState → Outcome} {env : Surroundings}
      {pindexNew : UInt256} (run : FinderRun occurring fTxIndex s) (setting : env.settings.fTxIndex = fTxIndex)
      (handsOut : HandsOut env s.finder.chain.mapBlockIndex) (writes : s.finder.chain.WritesCoins env pindexNew)
      (returned : s.setBestChain reorganise env pindexNew = .ok next) : FinderRun occurring fTxIndex next
  | getTransaction {s next : TransactionFinder} {fAllowSlow : Bool} {hash hashBlock : UInt256}
      {found : Option (CTransaction × UInt256)} (run : FinderRun occurring fTxIndex s)
      (returned : s.getTransaction fTxIndex fAllowSlow hash hashBlock = .ok (next, found)) :
      FinderRun occurring fTxIndex next

/-- What a run keeps, besides what it keeps of the coins. -/
structure Served (fTxIndex : Bool) (s : TransactionFinder) : Prop where
  navigable : s.finder.Navigable
  points : s.txIndex.Points s.finder.chain.mapBlockIndex s.finder.chain.blockFiles
  covered : ∀ hash best, s.finder.chain.pindexBest = some best →
    Ancestor s.finder.chain.mapBlockIndex.parent hash best → s.finder.chain.mapBlockIndex.parent hash ≠ none →
      s.finder.chain.mapBlockIndex.Covered s.finder.chain.blockFiles fTxIndex s.txIndex hash
  stores : Stores s.diskFiles s.finder.chain.blockFiles

variable {occurring : Set CTransaction} {fTxIndex : Bool} {s next : TransactionFinder} {after : ChainState}
  {diskFiles : CDiskBlockPos → Bytes} {env : Surroundings} {reorganise : ChainState → Outcome} {pindexNew : UInt256}

omit [ScriptMachine] in
theorem Fresh.served (fresh : s.Fresh occurring) : s.Served fTxIndex := by
  have tree := fresh.ready.indexed.tree
  have root := fresh.ready.indexed.genesis
  have only : ∀ hash best, s.finder.chain.pindexBest = some best →
      Ancestor s.finder.chain.mapBlockIndex.parent hash best → hash = hashGenesisBlock := by
    intro hash best tip above
    rw [fresh.tip] at tip
    cases tip
    rcases above.cases_parent with same | ⟨pprev, up, _⟩
    · exact same
    · rw [root] at up
      contradiction
  obtain ⟨best, tip, present⟩ := fresh.ready.started
  rw [fresh.tip] at tip
  cases tip
  obtain ⟨index, known⟩ := Option.isSome_iff_exists.mp present
  have bottom : index.pprev = none := (parent_of known).symm.trans root
  refine ⟨⟨fresh.ready.linked, fresh.rooted, ?_, ?_, ?_, ?_, fun _ _ => fresh.genesis, ?_⟩, ?_, ?_, fresh.stores⟩
  · intro best hash child tip up above
    rw [only child best tip above, root] at up
    contradiction
  · intro best tip
    rw [fresh.tip] at tip
    cases tip
    exact present
  · intro best tip
    rw [fresh.tip] at tip
    cases tip
    rw [height_of known, fresh.height, (fresh.rooted _ _ known bottom).2]
  · rw [fresh.tip]
    exact fun empty => by cases empty
  · rw [fresh.uncached]
    exact fun _ held => by cases held
  · intro txid postx found
    rw [fresh.empty] at found
    contradiction
  · intro hash best tip above up
    rw [only hash best tip above] at up
    exact absurd root up

/-! ## New blocks -/

omit [Hashing] [PubKeys] [ScriptMachine] in
theorem Received.entry (received : s.Received occurring after diskFiles) {hash : UInt256} {index : CBlockIndex}
    (known : s.finder.chain.mapBlockIndex hash = some index) : after.mapBlockIndex hash = some index :=
  received.grows.index hash index known

omit [PubKeys] [ScriptMachine] in
theorem readFromDisk_grows {blockFiles files : CDiskBlockPos → Option CBlock} {index : CBlockIndex} {block : CBlock}
    (grows : ∀ pos block, blockFiles pos = some block → files pos = some block)
    (read : readFromDisk blockFiles index = some block) : readFromDisk files index = some block := by
  simp only [readFromDisk, Option.bind_eq_bind, Option.bind_eq_some_iff] at read ⊢
  obtain ⟨pos, place, stored, found, passes⟩ := read
  exact ⟨pos, place, stored, grows pos stored found, passes⟩

omit [Hashing] [PubKeys] [ScriptMachine] in
theorem Received.navigable (received : s.Received occurring after diskFiles) (navigable : s.finder.Navigable)
    {best : UInt256} (tip : s.finder.chain.pindexBest = some best) :
    BlockFinder.Navigable { s.finder with chain := after } := by
  have grows := received.grows
  have tree := navigable.linked.tree
  have present := navigable.known best tip
  have same : after.pindexBest = some best := grows.best.trans tip
  have top : ∀ {other : UInt256}, after.pindexBest = some other → other = best := by
    intro other also
    rw [same] at also
    exact (Option.some.inj also).symm
  refine ⟨grows.linked navigable.linked, received.rooted, ?_, ?_, ?_, ?_, ?_, ?_⟩
  · intro other hash child also up above
    rw [top also] at above
    have path := grows.ancestor_before tree above present
    obtain ⟨index, known⟩ := Option.isSome_iff_exists.mp (tree.known_of_ancestor path present)
    have pprev : s.finder.chain.mapBlockIndex.parent child = some hash := by
      rw [parent_of known, ← parent_of (received.entry known)]
      exact up
    have before := navigable.complete best hash child tip pprev path
    intro missing
    obtain ⟨next, link⟩ := Option.ne_none_iff_exists'.mp before
    obtain ⟨entry, found, pnext⟩ := Option.bind_eq_some_iff.mp link
    change (after.mapBlockIndex hash).bind CBlockIndex.pnext = none at missing
    rw [received.entry found, Option.bind_some, pnext] at missing
    contradiction
  · intro other also
    rw [top also]
    obtain ⟨index, known⟩ := Option.isSome_iff_exists.mp present
    change (after.mapBlockIndex best).isSome = true
    rw [received.entry known]
    rfl
  · intro other also
    rw [top also]
    obtain ⟨index, known⟩ := Option.isSome_iff_exists.mp present
    change after.nBestHeight = after.mapBlockIndex.height best
    rw [received.height, navigable.height best tip, height_of known, height_of (received.entry known)]
  · intro unstarted
    exact absurd (same.symm.trans unstarted) (Option.some_ne_none best)
  · exact fun _ _ => navigable.genesis best tip
  · intro last cached
    obtain ⟨other, also, path⟩ := navigable.cached last cached
    exact ⟨other, grows.best.trans also, grows.ancestor path⟩

omit [PubKeys] [ScriptMachine] in
theorem Served.receive (served : s.Served fTxIndex) (received : s.Received occurring after diskFiles) {best : UInt256}
    (tip : s.finder.chain.pindexBest = some best) :
    Served fTxIndex { s with finder := { s.finder with chain := after }, diskFiles } := by
  have grows := received.grows
  have tree := served.navigable.linked.tree
  have present := served.navigable.known best tip
  refine ⟨received.navigable served.navigable tip, ?_, ?_, received.stores⟩
  · intro txid postx found
    obtain ⟨pos, block, place, stored, known, finds⟩ := served.points txid postx found
    obtain ⟨index, entry⟩ := Option.ne_none_iff_exists'.mp known
    refine ⟨pos, block, place, grows.blocks pos block stored, ?_, finds⟩
    rw [received.entry entry]
    exact Option.some_ne_none index
  · intro hash other also above up
    change after.pindexBest = some other at also
    rw [grows.best, tip] at also
    cases also
    have path := grows.ancestor_before tree above present
    obtain ⟨index, known⟩ := Option.isSome_iff_exists.mp (tree.known_of_ancestor path present)
    have stays : s.finder.chain.mapBlockIndex.parent hash ≠ none := by
      rw [parent_of known, ← parent_of (received.entry known)]
      exact up
    obtain ⟨entry, block, found, read, covers⟩ := served.covered hash best tip path stays
    exact ⟨entry, block, received.entry found, readFromDisk_grows grows.blocks read, covers⟩

/-! ## Switches of the best chain -/

theorem indexAfter_eq {switch : Switch} {u : Unwinding} (unwound : s.finder.chain.unwind pindexNew = .ok (switch, u)) :
    s.indexAfter env pindexNew = (connectTipStores env s.finder.chain.blockFiles switch.vConnect
      ⟨⟨u.view, [], s.finder.chain.mapBlockIndex, s.finder.chain.undoFiles⟩, s.txIndex⟩).txIndex := by
  unfold indexAfter
  dsimp only
  rw [unwound]

variable (env) in
theorem Served.wound (served : s.Served fTxIndex) (ready : s.finder.chain.Ready occurring) {switch : Switch}
    {u : Unwinding} (unwound : s.finder.chain.unwind pindexNew = .ok (switch, u)) :
    TxIndex.Points s.finder.chain.mapBlockIndex s.finder.chain.blockFiles (s.indexAfter env pindexNew) ∧
      TxIndex.Keeps s.txIndex (s.indexAfter env pindexNew) ∧
      ((s.finder.chain.wind env switch u).2 = none → ∀ hash ∈ switch.vConnect,
        s.finder.chain.mapBlockIndex.Covered s.finder.chain.blockFiles env.settings.fTxIndex
          (s.indexAfter env pindexNew) hash) := by
  obtain ⟨best, fork, tip, plans⟩ := ready.plans unwound
  have notGenesis : ∀ hash ∈ switch.vConnect, hash ≠ hashGenesisBlock := fun hash member =>
    (ready.indexed.connectable (plans.connect.parent_ne_none hash (List.mem_reverse.mpr member))).1
  rw [indexAfter_eq unwound]
  exact connectTipStores_index ⟨⟨u.view, [], s.finder.chain.mapBlockIndex, s.finder.chain.undoFiles⟩, s.txIndex⟩
    ready.indexed.tree served.points notGenesis

variable (env) (pindexNew) in
theorem indexAfter_points (served : s.Served fTxIndex) (ready : s.finder.chain.Ready occurring) :
    TxIndex.Points s.finder.chain.mapBlockIndex s.finder.chain.blockFiles (s.indexAfter env pindexNew) ∧
      TxIndex.Keeps s.txIndex (s.indexAfter env pindexNew) := by
  cases unwound : s.finder.chain.unwind pindexNew with
  | error reason =>
      unfold indexAfter
      dsimp only
      rw [unwound]
      exact ⟨served.points, .refl _⟩
  | ok result =>
      obtain ⟨switch, u⟩ := result
      have wound := served.wound env ready unwound
      exact ⟨wound.1, wound.2.1⟩

theorem Served.moved (served : s.Served fTxIndex) (ready : s.finder.chain.Ready occurring)
    (setting : env.settings.fTxIndex = fTxIndex) {switch : Switch} {u : Unwinding} {w : Winding}
    (moved : s.finder.chain.Moved env pindexNew switch u w after) {hash : UInt256}
    (above : Ancestor after.mapBlockIndex.parent hash pindexNew) (up : after.mapBlockIndex.parent hash ≠ none) :
    after.mapBlockIndex.Covered after.blockFiles fTxIndex (s.indexAfter env pindexNew) hash := by
  obtain ⟨best, fork, tip, plans⟩ := ready.plans moved.unwound
  obtain ⟨_, keeps, covers⟩ := served.wound env ready moved.unwound
  have connected : SameLocations s.finder.chain.mapBlockIndex w.mapBlockIndex := by
    have loop : SameLocations s.finder.chain.mapBlockIndex (connectTips env s.finder.chain.blockFiles switch.vConnect
        ⟨u.view, [], s.finder.chain.mapBlockIndex, s.finder.chain.undoFiles⟩).1.mapBlockIndex := connectTips_same .located _ _
    have wound := moved.wound
    unfold ChainState.wind at wound
    rw [wound] at loop
    exact loop
  have same : SameLocations s.finder.chain.mapBlockIndex after.mapBlockIndex := by
    rw [moved.index]
    exact Same.trans connected (relink_same (fun _ _ => rfl) switch)
  rw [moved.shape.parent_eq] at above up
  rw [moved.blocks]
  refine BlockMap.Covered.same ?_ same
  cases plans.connect.mem_or_ancestor rfl above with
  | inl member =>
      rw [← setting]
      exact covers (by rw [moved.wound]) hash (List.mem_reverse.mp member)
  | inr below =>
      obtain ⟨_, same, path⟩ := below
      cases same
      exact (served.covered hash best tip (path.trans (plans.disconnect.stop_ancestor rfl)) up).keeps keeps

theorem stayed_locations (recorded : s.finder.chain.Recorded env pindexNew after) :
    SameLocations s.finder.chain.mapBlockIndex after.mapBlockIndex := by
  have located : ∀ {map other : BlockMap}, SameRecords map other → SameLocations map other := by
    intro map other records hash
    have entries := congrArg (Option.map CBlockIndex.located) (records hash)
    simp only [Option.map_map, Function.comp_def, CBlockIndex.located_record] at entries
    exact entries
  rcases recorded with ⟨records, _⟩ | ⟨switch, u, w, stop, _, wound, records, _⟩
  · exact located records
  · have loop : SameLocations s.finder.chain.mapBlockIndex (connectTips env s.finder.chain.blockFiles switch.vConnect
        ⟨u.view, [], s.finder.chain.mapBlockIndex, s.finder.chain.undoFiles⟩).1.mapBlockIndex := connectTips_same .located _ _
    unfold ChainState.wind at wound
    rw [wound] at loop
    exact Same.trans loop (located records)

theorem Served.setBestChain (served : s.Served fTxIndex) (ready : s.finder.chain.Ready occurring)
    (setting : env.settings.fTxIndex = fTxIndex) (writes : s.finder.chain.WritesCoins env pindexNew)
    (returned : s.setBestChain reorganise env pindexNew = .ok next) :
    next.Served fTxIndex ∧ next.finder.chain = (s.finder.chain.setBestChain reorganise env pindexNew).state ∧
      Returns (s.finder.chain.setBestChain reorganise env pindexNew).result := by
  simp only [TransactionFinder.setBestChain, bind_eq_ok, pure_eq_ok] at returned
  obtain ⟨finder, returned, rfl⟩ := returned
  have navigable := served.navigable.setBestChain writes returned
  obtain ⟨points, keeps⟩ := indexAfter_points env pindexNew served ready
  unfold BlockFinder.setBestChain at returned
  dsimp only at returned
  split at returned
  · rename_i done result
    cases returned
    obtain ⟨switch, u, w, moved⟩ := ChainState.setBestChain_ok result
    refine ⟨⟨navigable, ?_, ?_, ?_⟩, rfl, by rw [result]; trivial⟩
    · rw [moved.blocks]
      exact points.shape moved.shape
    · intro hash best tip above up
      cases moved.best.symm.trans tip
      exact served.moved ready setting moved above up
    · rw [moved.blocks]
      exact served.stores
  · rename_i reason result
    split at returned
    · rename_i false_
      cases returned
      have linked := served.navigable.linked
      have stayed := ChainState.setBestChain_error linked.consistent writes result false_
      have recorded := ChainState.setBestChain_recorded linked.consistent result false_
      have shape := stayed.tree.shape
      refine ⟨⟨navigable, ?_, ?_, ?_⟩, rfl, by rw [result]; exact false_⟩
      · rw [stayed.blocks]
        exact points.shape shape
      · intro hash best tip above up
        rw [shape.parent_eq] at above up
        have covered := (served.covered hash best (stayed.memory.best.symm.trans tip) above up).keeps keeps
        rw [stayed.blocks]
        exact covered.same (stayed_locations recorded)
      · rw [stayed.blocks]
        exact served.stores
    · cases returned

omit [PubKeys] [ScriptMachine] in
theorem Served.getTransaction {fAllowSlow : Bool} {hash hashBlock : UInt256} {found : Option (CTransaction × UInt256)}
    (served : s.Served fTxIndex) (returned : s.getTransaction fTxIndex fAllowSlow hash hashBlock = .ok (next, found)) :
    next.Served fTxIndex ∧ next.finder.chain = s.finder.chain := by
  have slow : s.slowTransaction fAllowSlow hash = .ok (next, found) →
      next.Served fTxIndex ∧ next.finder.chain = s.finder.chain := by
    intro slowly
    unfold slowTransaction at slowly
    split at slowly
    · simp only [bind_eq_ok, pure_eq_ok, Prod.mk.injEq] at slowly
      obtain ⟨⟨finder, pindexSlow⟩, scanned, rfl, _⟩ := slowly
      obtain ⟨rfl, best, tip, above⟩ := served.navigable.returned scanned
      exact ⟨⟨served.navigable.cache tip above, served.points, served.covered, served.stores⟩, rfl⟩
    · cases slowly
      exact ⟨served, rfl⟩
  unfold TransactionFinder.getTransaction at returned
  split at returned
  · cases returned
    exact ⟨served, rfl⟩
  · split at returned
    · split at returned
      · cases returned
        exact ⟨served, rfl⟩
      · exact slow returned
    · exact slow returned

theorem FinderRun.sound (collisionFree : CTxMemPool.CollisionFree occurring) (run : FinderRun occurring fTxIndex s) :
    ChainState.CoinRun occurring s.finder.chain ∧ s.Served fTxIndex := by
  induction run with
  | start fresh => exact ⟨.start fresh.ready fresh.spent fresh.stored fresh.unrecorded, fresh.served⟩
  | receive _ received ih =>
      obtain ⟨coins, served⟩ := ih
      obtain ⟨best, tip, _⟩ := (coins.sound collisionFree).1.started
      exact ⟨coins.grow received.grows received.stored received.unrecorded, served.receive received tip⟩
  | setBestChain _ setting handsOut writes returned ih =>
      obtain ⟨coins, served⟩ := ih
      obtain ⟨after, chain, returns⟩ := served.setBestChain (coins.sound collisionFree).1 setting writes returned
      rw [chain]
      exact ⟨coins.setBestChain handsOut writes returns, after⟩
  | getTransaction _ returned ih =>
      obtain ⟨coins, served⟩ := ih
      obtain ⟨after, chain⟩ := served.getTransaction returned
      rw [chain]
      exact ⟨coins, after⟩

/-! ## What is found -/

omit [PubKeys] [ScriptMachine] in
theorem Served.readIndexed (served : s.Served fTxIndex) {txid : UInt256} {postx : CDiskTxPos}
    (found : s.txIndex txid = some postx) :
    ∃ pos block tx, s.finder.chain.blockFiles pos = some block ∧
      s.finder.chain.mapBlockIndex block.getHash ≠ none ∧ tx ∈ block.vtx ∧ tx.getHash = txid ∧
      BitCrystal.readIndexed s.diskFiles txid postx = some (tx, block.getHash) := by
  obtain ⟨pos, block, place, stored, known, tx, member, same, reads⟩ := served.points txid postx found
  obtain ⟨sized, rest, bytes⟩ := served.stores pos block stored
  refine ⟨pos, block, tx, stored, known, member, same, ?_⟩
  simp only [BitCrystal.readIndexed, place, bytes, reads sized rest, Option.bind_eq_bind, Option.bind_some, same, if_true]
  rfl

end

end TransactionFinder

/-! ## A sample -/

namespace Sample

end Sample

namespace TransactionFinder

open Sample

end TransactionFinder

end BitCrystal
