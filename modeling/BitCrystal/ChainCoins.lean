import BitCrystal.ActiveChain
import BitCrystal.CoinsFlow

namespace BitCrystal

open Data BlockMap

/-! # The coins along a switch of the tip -/

theorem CoinsView.Genuine.reload [Hashing] [PubKeys] {occurring : Set CTransaction} {view : CoinsView}
    (genuine : view.Genuine occurring) (wellFormed : view.WellFormed) : view.reload.Genuine occurring := by
  intro place txout present
  rw [wellFormed.outputAt_reload] at present
  exact genuine place txout present

def CBlockIndex.dataPos (index : CBlockIndex) : CDiskBlockPos :=
  ⟨index.nFile, index.nDataPos⟩

def BlockMap.fileBlock (map : BlockMap) (blockFiles : CDiskBlockPos → Option CBlock) (hash : UInt256) :
    Option CBlock :=
  ((map hash).map CBlockIndex.dataPos).bind blockFiles

theorem BlockMap.SameShape.fileBlock_eq {map other : BlockMap} (same : SameShape map other)
    (blockFiles : CDiskBlockPos → Option CBlock) : other.fileBlock blockFiles = map.fileBlock blockFiles := by
  funext hash
  simp only [fileBlock, same.field CBlockIndex.dataPos fun _ => rfl]

/-- An entry whose block ConnectBlock treats as one above the genesis block. -/
def BlockMap.Connectable (map : BlockMap) (hash : UInt256) : Prop :=
  hash ≠ hashGenesisBlock ∧ ∀ index, map hash = some index →
    index.phashBlock = some hash ∧ 0 < index.nHeight ∧ index.nHeight < 2 ^ 31

theorem BlockMap.Connectable.shape {map other : BlockMap} (same : SameShape map other) {hash : UInt256}
    (connectable : map.Connectable hash) : other.Connectable hash := by
  refine ⟨connectable.1, fun index known => ?_⟩
  obtain ⟨before, found, equal⟩ := same.entry known
  obtain ⟨own, _, height, _⟩ := CBlockIndex.shape_fields equal
  rw [own, height]
  exact connectable.2 before found

theorem readFromDisk_eq_some [Hashing] {blockFiles : CDiskBlockPos → Option CBlock} {pindex : CBlockIndex}
    {block : CBlock} (read : readFromDisk blockFiles pindex = some block) :
    blockFiles pindex.dataPos = some block ∧ some block.getHash = pindex.phashBlock := by
  simp only [readFromDisk, Option.bind_eq_bind, Option.bind_eq_some_iff, Option.ite_none_right_eq_some,
    Option.some.injEq] at read
  obtain ⟨pos, place, stored, found, ⟨_, same⟩, rfl⟩ := read
  unfold CBlockIndex.getBlockPos at place
  split at place
  · cases place
    exact ⟨found, same⟩
  · contradiction

/-! ## Connecting -/

theorem Step.andThen_state {σ : Type} {property : σ → Prop} {step : Step σ} {next : σ → Step σ}
    (first : property step.state) (second : ∀ state, property state → property (next state).state) :
    property (step.andThen next).state := by
  unfold Step.andThen
  split
  · exact first
  · exact second step.state first

/-- What the writes of ConnectBlock do not touch, and that undo data stays readable. -/
structure Winding.Recorded [Hashing] [PubKeys] (w after : Winding) : Prop where
  view : after.view = w.view
  vDelete : after.vDelete = w.vDelete
  undos : UndoStorable w.undoFiles → UndoStorable after.undoFiles

section

variable [Hashing] [PubKeys]

theorem Winding.Recorded.refl (w : Winding) : w.Recorded w :=
  ⟨rfl, rfl, id⟩

theorem writeUndo_recorded (env : Surroundings) (hash : UInt256) (pindex : CBlockIndex)
    {blockundo : CBlockUndo} (storable : blockundo.Storable) (w : Winding) :
    w.Recorded (writeUndo env hash pindex blockundo w).state := by
  unfold writeUndo
  split
  · exact .refl w
  · split
    · exact .refl w
    · exact .refl w
    · split
      · refine ⟨rfl, rfl, fun undos pos prev read accepted => ?_⟩
        dsimp only at accepted
        split at accepted
        · exact storable.of_readFromDisk accepted
        · exact undos pos prev read accepted
      · exact .refl w

theorem writeConnected_recorded (env : Surroundings) (hash : UInt256) (pindex : CBlockIndex)
    {blockundo : CBlockUndo} (storable : blockundo.Storable) (w : Winding) :
    w.Recorded (writeConnected env hash pindex blockundo w).state := by
  unfold writeConnected
  apply Step.andThen_state
  · split
    · apply Step.andThen_state (writeUndo_recorded env hash pindex storable w)
      intro state recorded
      exact ⟨recorded.view, recorded.vDelete, recorded.undos⟩
    · exact .refl w
  · intro state recorded
    split <;> exact recorded

variable [ScriptMachine] {occurring : Set CTransaction} {env : Surroundings}
  {blockFiles : CDiskBlockPos → Option CBlock}

def BlocksOccur (occurring : Set CTransaction) (blockFiles : CDiskBlockPos → Option CBlock) : Prop :=
  ∀ pos block, blockFiles pos = some block → ∀ tx ∈ block.vtx, tx ∈ occurring

theorem connectTip_flows (collisionFree : CTxMemPool.CollisionFree occurring)
    (occurs : BlocksOccur occurring blockFiles) {hash : UInt256} {w : Winding}
    (connectable : w.mapBlockIndex.Connectable hash) (wellFormed : w.view.WellFormed)
    (genuine : w.view.Genuine occurring) :
    (UndoStorable w.undoFiles → UndoStorable (connectTip env blockFiles hash w).state.undoFiles) ∧
      ((connectTip env blockFiles hash w).failure = none → ∃ block,
        w.mapBlockIndex.fileBlock blockFiles hash = some block ∧ block.InputsKnown occurring ∧
        Flows occurring block.vtx w.view (connectTip env blockFiles hash w).state.view ∧
        (connectTip env blockFiles hash w).state.vDelete = w.vDelete ++ block.vtx) := by
  unfold connectTip
  cases known : w.mapBlockIndex hash with
  | none => exact ⟨fun undos => undos, by simp⟩
  | some index =>
      obtain ⟨notGenesis, entry⟩ := connectable
      obtain ⟨own, height⟩ := entry index known
      dsimp only
      cases read : readFromDisk blockFiles index with
      | none => exact ⟨fun undos => undos, by simp⟩
      | some block =>
          obtain ⟨stored, same⟩ := readFromDisk_eq_some read
          rw [own, Option.some.injEq] at same
          dsimp only
          cases connected : block.connectBlock env.settings w.mapBlockIndex index w.view false with
          | error reason => exact ⟨fun undos => undos, by simp⟩
          | ok result =>
              obtain ⟨view, blockundo⟩ := result
              obtain ⟨flows, inputs, vtxundo, rfl, storable⟩ := connectBlock_flows collisionFree
                (occurs _ block stored) (by rw [same]; exact notGenesis) height connected wellFormed genuine
              have recorded := writeConnected_recorded env hash index storable w
              dsimp only
              constructor
              · intro undos
                unfold Step.andThen
                split <;> exact recorded.undos undos
              · intro ended
                obtain ⟨_, run⟩ := Step.andThen_failure_none ended
                rw [run]
                exact ⟨block, by simp [fileBlock, known, stored], inputs, flows,
                  congrArg (· ++ block.vtx) recorded.vDelete⟩

theorem connectTips_flows (collisionFree : CTxMemPool.CollisionFree occurring)
    (occurs : BlocksOccur occurring blockFiles) {hashes : List UInt256} {w : Winding}
    (connectable : ∀ hash ∈ hashes, w.mapBlockIndex.Connectable hash) (wellFormed : w.view.WellFormed)
    (genuine : w.view.Genuine occurring) :
    (UndoStorable w.undoFiles → UndoStorable (connectTips env blockFiles hashes w).1.undoFiles) ∧
      ∀ last, connectTips env blockFiles hashes w = (last, none) → ∃ txs,
        last.vDelete = w.vDelete ++ txs ∧ Flows occurring txs w.view last.view ∧
        ∀ hash ∈ hashes, ∃ block, w.mapBlockIndex.fileBlock blockFiles hash = some block ∧
          block.InputsKnown occurring := by
  induction hashes generalizing w with
  | nil =>
      refine ⟨fun undos => undos, fun last run => ?_⟩
      cases run
      exact ⟨[], (List.append_nil _).symm, .nothing wellFormed genuine, by simp⟩
  | cons hash rest ih =>
      have turn : (UndoStorable w.undoFiles → UndoStorable (connectTip env blockFiles hash w).state.undoFiles) ∧ _ :=
        connectTip_flows collisionFree occurs (connectable hash List.mem_cons_self) wellFormed genuine
      obtain ⟨undos, connects⟩ := turn
      have same : SameShape w.mapBlockIndex (connectTip env blockFiles hash w).state.mapBlockIndex :=
        (connectTip_writes hash w).shape
      rw [connectTips]
      cases failed : (connectTip env blockFiles hash w).failure with
      | some reason => exact ⟨undos, fun last run => by cases run⟩
      | none =>
          obtain ⟨block, stored, inputs, flows, deleted⟩ := connects failed
          obtain ⟨undosRest, others⟩ := ih
            (fun other member => (connectable other (List.mem_cons_of_mem hash member)).shape same)
            flows.wellFormed flows.genuine
          refine ⟨fun before => undosRest (undos before), fun last run => ?_⟩
          obtain ⟨txs, more, next, known⟩ := others last run
          refine ⟨block.vtx ++ txs, ?_, flows.trans next, ?_⟩
          · rw [more, deleted, List.append_assoc]
          · intro other member
            rcases List.mem_cons.mp member with rfl | later
            · exact ⟨block, stored, inputs⟩
            · rw [← same.fileBlock_eq]
              exact known other later

end

/-! ## Disconnecting -/

theorem disconnectTips_flow [Hashing] [PubKeys] {occurring : Set CTransaction} {s : ChainState}
    {hashes : List UInt256} {u last : Unwinding} (run : hashes.foldlM (disconnectTip s) u = .ok last)
    (undos : UndoStorable s.undoFiles)
    (known : ∀ hash ∈ hashes, ∀ block, s.mapBlockIndex.fileBlock s.blockFiles hash = some block →
      block.InputsKnown occurring)
    (wellFormed : u.view.WellFormed) (genuine : u.view.Genuine occurring) :
    last.view.WellFormed ∧ last.view.Genuine occurring ∧
      (∀ place, (∀ hash ∈ hashes, ∀ block, s.mapBlockIndex.fileBlock s.blockFiles hash = some block →
          ∀ tx ∈ block.vtx, place.1 ≠ tx.getHash) →
        (u.view.outputAt place).isSome → (last.view.outputAt place).isSome) ∧
      ∀ tx ∈ last.vResurrect, tx ∈ u.vResurrect ∨ ∃ hash ∈ hashes, ∃ block,
        s.mapBlockIndex.fileBlock s.blockFiles hash = some block ∧ tx ∈ block.vtx := by
  induction hashes generalizing u with
  | nil =>
      cases run
      exact ⟨wellFormed, genuine, fun _ _ present => present, fun _ => Or.inl⟩
  | cons hash rest ih =>
      obtain ⟨next, step, remaining⟩ := foldlM_cons_eq_ok.mp run
      simp only [disconnectTip, bind_eq_ok, expect_eq_ok, require_eq_ok, pure_eq_ok, Prod.exists,
        exists_const] at step
      obtain ⟨index, found, block, read, view, fClean, undone, clean, rfl⟩ := step
      subst clean
      have stored : s.mapBlockIndex.fileBlock s.blockFiles hash = some block := by
        simp [fileBlock, found, (readFromDisk_eq_some read).1]
      obtain ⟨kept, made, stays⟩ := disconnectBlock_flow undone undos
        (known hash List.mem_cons_self block stored) wellFormed genuine
      obtain ⟨lastKept, lastMade, lastStays, resurrected⟩ := ih remaining
        (fun other member => known other (List.mem_cons_of_mem hash member)) kept made
      refine ⟨lastKept, lastMade, ?_, ?_⟩
      · intro place others present
        refine lastStays place (fun other member => others other (List.mem_cons_of_mem hash member)) ?_
        exact stays place (others hash List.mem_cons_self block stored) present
      · intro tx member
        rcases resurrected tx member with early | ⟨other, later, found⟩
        · rcases List.mem_append.mp early with before | now
          · exact Or.inl before
          · exact Or.inr ⟨hash, List.mem_cons_self, block, stored, (List.mem_filter.mp now).1⟩
        · exact Or.inr ⟨other, List.mem_cons_of_mem hash later, found⟩

theorem BlockMap.SameShape.isSome {map other : BlockMap} (same : SameShape map other) {hash : UInt256}
    (known : (map hash).isSome) : (other hash).isSome := by
  have both := congrArg Option.isSome (same hash)
  rw [Option.isSome_map, Option.isSome_map] at both
  rw [both]
  exact known

theorem BlockMap.Tree.known_of_ancestor {map : BlockMap} (tree : map.Tree) {hash top : UInt256}
    (path : Ancestor map.parent hash top) (known : (map top).isSome) : (map hash).isSome := by
  induction path with
  | refl => exact known
  | tail _ step ih =>
      obtain ⟨index, found⟩ := Option.isSome_iff_exists.mp ih
      obtain ⟨previous, above, _⟩ := tree.above _ index _ found ((parent_of found).symm.trans step)
      rw [above]
      rfl

theorem PathDown.known {map : BlockMap} {start stop : Option UInt256} {top : UInt256} {hashes : List UInt256}
    (path : PathDown map start hashes stop) (first : start = some top) :
    (map top).isSome ∨ stop = some top := by
  cases hashes with
  | nil => exact Or.inr (path.symm.trans first)
  | cons head rest =>
      obtain ⟨same, index, known, _⟩ := path
      rw [first] at same
      cases same
      rw [known]
      exact Or.inl rfl

theorem PathDown.parent_ne_none {map : BlockMap} {start : Option UInt256} {stop : UInt256}
    {hashes : List UInt256} (path : PathDown map start hashes (some stop)) :
    ∀ hash ∈ hashes, map.parent hash ≠ none := by
  induction hashes generalizing start with
  | nil => simp
  | cons head rest ih =>
      obtain ⟨_, index, known, more⟩ := path
      intro hash member
      rcases List.mem_cons.mp member with rfl | later
      · rw [parent_of known]
        cases rest with
        | nil =>
            rw [show index.pprev = some stop from more]
            simp
        | cons second others =>
            rw [more.1]
            simp
      · exact ih more hash later

namespace ChainState

/-! ## Nodes whose coins are those of the active chain -/

structure Indexed (occurring : Set CTransaction) (s : ChainState) : Prop where
  tree : s.mapBlockIndex.Tree
  heights : ∀ hash, s.mapBlockIndex.height hash < 2 ^ 31
  genesis : s.mapBlockIndex.parent hashGenesisBlock = none
  occurs : BlocksOccur occurring s.blockFiles

/-- A transaction of a block that SetBestChain disconnects. -/
def Disconnected (s : ChainState) (switch : Switch) (tx : CTransaction) : Prop :=
  ∃ hash ∈ switch.vDisconnect, ∃ block,
    s.mapBlockIndex.fileBlock s.blockFiles hash = some block ∧ tx ∈ block.vtx

section

variable {occurring : Set CTransaction} {s after : ChainState} {pindexNew : UInt256} {switch : Switch}
  {u : Unwinding} {w : Winding} {env : Surroundings}

theorem Indexed.shape (indexed : s.Indexed occurring)
    (same : SameShape s.mapBlockIndex after.mapBlockIndex) (blocks : after.blockFiles = s.blockFiles) :
    after.Indexed occurring := by
  refine ⟨same.tree indexed.tree, ?_, ?_, ?_⟩
  · rw [same.height_eq]
    exact indexed.heights
  · rw [same.parent_eq]
    exact indexed.genesis
  · rw [blocks]
    exact indexed.occurs

theorem Indexed.connectable (indexed : s.Indexed occurring) {hash : UInt256}
    (up : s.mapBlockIndex.parent hash ≠ none) : s.mapBlockIndex.Connectable hash := by
  refine ⟨?_, fun index known => ⟨indexed.tree.owned hash index known, ?_, ?_⟩⟩
  · rintro rfl
    exact up indexed.genesis
  · obtain ⟨pprev, above⟩ := Option.ne_none_iff_exists'.mp up
    rw [parent_of known] at above
    obtain ⟨previous, found, one⟩ := indexed.tree.above hash index pprev known above
    have nonneg := indexed.tree.nonneg pprev previous found
    omega
  · rw [← height_of known]
    exact indexed.heights hash

variable [Hashing] [PubKeys]

structure Ready (occurring : Set CTransaction) (s : ChainState) : Prop where
  indexed : s.Indexed occurring
  linked : s.Linked
  started : ∃ best, s.pindexBest = some best ∧ (s.mapBlockIndex best).isSome
  wellFormed : s.pcoinsTip.WellFormed
  genuine : s.pcoinsTip.Genuine occurring
  undos : UndoStorable s.undoFiles
  known : ∀ hash best, s.pindexBest = some best → Ancestor s.mapBlockIndex.parent hash best →
    s.mapBlockIndex.parent hash ≠ none →
      ∃ block, s.mapBlockIndex.fileBlock s.blockFiles hash = some block ∧ block.InputsKnown occurring

theorem Ready.plans (ready : s.Ready occurring) (unwound : s.unwind pindexNew = .ok (switch, u)) :
    ∃ best fork, s.pindexBest = some best ∧
      Plans s.mapBlockIndex (some best) pindexNew switch (some fork) := by
  obtain ⟨best, tip, _⟩ := ready.started
  obtain ⟨pfork, plans, _⟩ := unwind_plans ready.linked.tree unwound
  rw [ready.linked.tip, tip] at plans
  obtain ⟨fork, rfl, _⟩ := plans.fork best rfl
  exact ⟨best, fork, tip, plans⟩

theorem Ready.unwound (ready : s.Ready occurring) (unwound : s.unwind pindexNew = .ok (switch, u)) :
    u.view.WellFormed ∧ u.view.Genuine occurring ∧
      (∀ place, (s.pcoinsTip.outputAt place).isSome →
        (∃ tx, s.Disconnected switch tx ∧ place.1 = tx.getHash) ∨ (u.view.outputAt place).isSome) ∧
      ∀ tx ∈ u.vResurrect, s.Disconnected switch tx := by
  obtain ⟨best, fork, tip, plans⟩ := ready.plans unwound
  simp only [unwind, bind_eq_ok, pure_eq_ok, Prod.mk.injEq] at unwound
  obtain ⟨plan, _, unwinding, disconnected, rfl, rfl⟩ := unwound
  obtain ⟨kept, made, stays, resurrected⟩ := disconnectTips_flow disconnected ready.undos (by
    intro hash member block stored
    obtain ⟨other, found, inputs⟩ := ready.known hash best tip (plans.disconnect.ancestor rfl hash member)
      (plans.disconnect.parent_ne_none hash member)
    rw [stored] at found
    cases found
    exact inputs) ready.wellFormed ready.genuine
  refine ⟨kept, made, fun place present => ?_, fun tx member => ?_⟩
  · by_cases dropped : ∃ tx, s.Disconnected plan tx ∧ place.1 = tx.getHash
    · exact Or.inl dropped
    · refine Or.inr (stays place (fun hash member block stored tx inBlock same => ?_) present)
      exact dropped ⟨tx, ⟨hash, member, block, stored, inBlock⟩, same⟩
  · cases resurrected tx member with
    | inl early => simp at early
    | inr found => exact found

theorem Ready.disconnected_occurs (ready : s.Ready occurring) {tx : CTransaction}
    (dropped : s.Disconnected switch tx) : tx ∈ occurring := by
  obtain ⟨hash, _, block, stored, member⟩ := dropped
  obtain ⟨pos, _, found⟩ := Option.bind_eq_some_iff.mp stored
  exact ready.indexed.occurs pos block found tx member

variable [ScriptMachine]

theorem Ready.wound (ready : s.Ready occurring) (collisionFree : CTxMemPool.CollisionFree occurring)
    (unwound : s.unwind pindexNew = .ok (switch, u)) :
    UndoStorable (s.wind env switch u).1.undoFiles ∧
      ∀ w, s.wind env switch u = (w, none) → Flows occurring w.vDelete u.view w.view ∧
        ∀ hash ∈ switch.vConnect, ∃ block,
          s.mapBlockIndex.fileBlock s.blockFiles hash = some block ∧ block.InputsKnown occurring := by
  obtain ⟨best, fork, _, plans⟩ := ready.plans unwound
  obtain ⟨kept, made, _⟩ := ready.unwound unwound
  have connectable : ∀ hash ∈ switch.vConnect, s.mapBlockIndex.Connectable hash := by
    intro hash member
    exact ready.indexed.connectable (plans.connect.parent_ne_none hash (List.mem_reverse.mpr member))
  have loop : (_ → UndoStorable (s.wind env switch u).1.undoFiles) ∧ _ :=
    connectTips_flows collisionFree ready.indexed.occurs connectable kept made
  obtain ⟨undos, flows⟩ := loop
  refine ⟨undos ready.undos, fun w wound => ?_⟩
  obtain ⟨txs, deleted, moves, inputs⟩ := flows w wound
  rw [List.nil_append] at deleted
  rw [deleted]
  exact ⟨moves, inputs⟩

/-! ## What one call does to the coins -/

theorem Ready.stayed (ready : s.Ready occurring) (collisionFree : CTxMemPool.CollisionFree occurring)
    (stayed : s.Stayed env pindexNew after) : after.Ready occurring := by
  have shape := stayed.tree.shape
  have memory := stayed.memory
  refine ⟨ready.indexed.shape shape stayed.blocks, ready.linked.stayed stayed, ?_, ?_, ?_, ?_, ?_⟩
  · obtain ⟨best, tip, known⟩ := ready.started
    exact ⟨best, memory.best.trans tip, shape.isSome known⟩
  · rw [memory.coins]
    exact ready.wellFormed
  · rw [memory.coins]
    exact ready.genuine
  · rcases stayed.undos with same | ⟨switch, u, w, stop, unwound, wound, same⟩
    · rw [same]
      exact ready.undos
    · have written : UndoStorable (s.wind env switch u).1.undoFiles := (ready.wound collisionFree unwound).1
      rw [wound] at written
      rw [same]
      exact written
  · rw [memory.best, shape.parent_eq, shape.fileBlock_eq, stayed.blocks]
    exact ready.known

theorem Moved.coins_eq (moved : s.Moved env pindexNew switch u w after) (wellFormed : w.view.WellFormed)
    (place : UInt256 × Nat) : after.pcoinsTip.outputAt place = w.view.outputAt place := by
  rw [moved.coins, newTip]
  split
  · exact wellFormed.outputAt_reload place
  · rfl

theorem Ready.moved (ready : s.Ready occurring) (collisionFree : CTxMemPool.CollisionFree occurring)
    (moved : s.Moved env pindexNew switch u w after) : after.Ready occurring := by
  obtain ⟨best, fork, tip, plans⟩ := ready.plans moved.unwound
  obtain ⟨undos, winds⟩ := ready.wound collisionFree moved.unwound
  obtain ⟨flows, inputs⟩ := winds w moved.wound
  rw [moved.wound] at undos
  refine ⟨ready.indexed.shape moved.shape moved.blocks, ready.linked.moved moved, ?_, ?_, ?_, ?_, ?_⟩
  · refine ⟨pindexNew, moved.best, moved.shape.isSome ?_⟩
    obtain ⟨top, same, known⟩ := ready.started
    cases plans.connect.known rfl with
    | inl found => exact found
    | inr empty =>
        cases empty
        rw [tip] at same
        cases same
        exact ready.indexed.tree.known_of_ancestor (plans.disconnect.stop_ancestor rfl) known
  · rw [moved.coins, newTip]
    split
    · exact flows.wellFormed.reload
    · exact flows.wellFormed
  · intro place txout present
    rw [moved.coins_eq flows.wellFormed] at present
    exact flows.genuine place txout present
  · rw [moved.undos]
    exact undos
  · intro hash top tipNew above up
    rw [moved.best] at tipNew
    cases tipNew
    rw [moved.shape.parent_eq] at above up
    rw [moved.shape.fileBlock_eq, moved.blocks]
    cases plans.connect.mem_or_ancestor rfl above with
    | inl connected => exact inputs hash (List.mem_reverse.mp connected)
    | inr below =>
        obtain ⟨_, same, below⟩ := below
        cases same
        exact ready.known hash best tip (below.trans (plans.disconnect.stop_ancestor rfl)) up

structure Carries (occurring : Set CTransaction) (s : ChainState) (switch : Switch) (vDelete : List CTransaction)
    (view : CoinsView) : Prop where
  checked : ∀ tx ∈ vDelete, tx ∈ occurring ∧ tx.Checked
  keeps : ∀ place, (s.pcoinsTip.outputAt place).isSome →
    (∃ tx, s.Disconnected switch tx ∧ place.1 = tx.getHash) ∨ place ∈ spentPlaces vDelete ∨
      (view.outputAt place).isSome
  makes : ∀ pre tx post nPos, vDelete = pre ++ tx :: post → nPos < tx.vout.length →
    (tx.getHash, nPos) ∈ spentPlaces post ∨ (view.outputAt (tx.getHash, nPos)).isSome

theorem Ready.carries (ready : s.Ready occurring) (collisionFree : CTxMemPool.CollisionFree occurring)
    (moved : s.Moved env pindexNew switch u w after) :
    s.Carries occurring switch w.vDelete after.pcoinsTip := by
  obtain ⟨_, _, stays, _⟩ := ready.unwound moved.unwound
  obtain ⟨_, winds⟩ := ready.wound collisionFree moved.unwound
  obtain ⟨flows, _⟩ := winds w moved.wound
  refine ⟨flows.checked, ?_, ?_⟩
  · intro place present
    cases stays place present with
    | inl dropped => exact Or.inl dropped
    | inr still =>
        by_cases spent : place ∈ spentPlaces w.vDelete
        · exact Or.inr (Or.inl spent)
        · rw [moved.coins_eq flows.wellFormed]
          exact Or.inr (Or.inr (flows.keeps place still spent))
  · intro pre tx post nPos split within
    by_cases spent : (tx.getHash, nPos) ∈ spentPlaces post
    · exact Or.inl spent
    · rw [moved.coins_eq flows.wellFormed]
      exact Or.inr (flows.makes pre tx post nPos split within spent)

end

/-! ## New blocks -/

/-- The block index and the block files have grown; the new entries are not on
the active chain. -/
structure Grows (occurring : Set CTransaction) (s after : ChainState) : Prop where
  coins : after.pcoinsTip = s.pcoinsTip
  best : after.pindexBest = s.pindexBest
  pool : after.mempool = s.mempool
  undos : after.undoFiles = s.undoFiles
  index : ∀ hash index, s.mapBlockIndex hash = some index → after.mapBlockIndex hash = some index
  fresh : ∀ hash index, after.mapBlockIndex hash = some index → s.mapBlockIndex hash = none →
    index.pnext = none
  blocks : ∀ pos block, s.blockFiles pos = some block → after.blockFiles pos = some block
  indexed : after.Indexed occurring

section

variable {occurring : Set CTransaction} {s after : ChainState}

theorem Grows.parent (grows : Grows occurring s after) {hash pprev : UInt256}
    (up : s.mapBlockIndex.parent hash = some pprev) : after.mapBlockIndex.parent hash = some pprev := by
  obtain ⟨index, known, above⟩ := Option.bind_eq_some_iff.mp up
  exact (parent_of (grows.index hash index known)).trans above

theorem Grows.ancestor (grows : Grows occurring s after) {hash best : UInt256}
    (path : Ancestor s.mapBlockIndex.parent hash best) : Ancestor after.mapBlockIndex.parent hash best :=
  Relation.ReflTransGen.mono (fun _ _ up => grows.parent up) _ _ path

theorem Grows.ancestor_before (grows : Grows occurring s after) (tree : s.mapBlockIndex.Tree)
    {hash best : UInt256} (path : Ancestor after.mapBlockIndex.parent hash best)
    (known : (s.mapBlockIndex best).isSome) : Ancestor s.mapBlockIndex.parent hash best := by
  induction path with
  | refl => exact .refl _
  | tail _ step ih =>
      obtain ⟨index, found⟩ := Option.isSome_iff_exists.mp (tree.known_of_ancestor ih known)
      have up : index.pprev = some _ := (parent_of (grows.index _ index found)).symm.trans step
      exact (Ancestor.of_parent ((parent_of found).trans up)).trans ih

theorem Grows.linked (grows : Grows occurring s after) (linked : s.Linked) : after.Linked := by
  refine ⟨grows.indexed.tree, ?_, fun hash index child known next => ?_⟩
  · rw [grows.coins, grows.best]
    exact linked.tip
  · cases found : s.mapBlockIndex hash with
    | none =>
        rw [grows.fresh hash index known found] at next
        contradiction
    | some before =>
        rw [grows.index hash before found] at known
        cases known
        obtain ⟨up, best, tip, above⟩ := linked.next hash index child found next
        exact ⟨grows.parent up, best, grows.best.trans tip, grows.ancestor above⟩

theorem Ready.grown [Hashing] [PubKeys] (ready : s.Ready occurring) (grows : Grows occurring s after) :
    after.Ready occurring := by
  obtain ⟨top, tip, present⟩ := ready.started
  refine ⟨grows.indexed, grows.linked ready.linked, ⟨top, grows.best.trans tip, ?_⟩, ?_, ?_, ?_, ?_⟩
  · obtain ⟨index, found⟩ := Option.isSome_iff_exists.mp present
    rw [grows.index top index found]
    rfl
  · rw [grows.coins]
    exact ready.wellFormed
  · rw [grows.coins]
    exact ready.genuine
  · rw [grows.undos]
    exact ready.undos
  · intro hash best tipAfter above up
    rw [grows.best, tip] at tipAfter
    cases tipAfter
    have below := grows.ancestor_before ready.indexed.tree above present
    obtain ⟨index, found⟩ := Option.isSome_iff_exists.mp (ready.indexed.tree.known_of_ancestor below present)
    have later := grows.index hash index found
    rw [parent_of later, ← parent_of found] at up
    obtain ⟨block, stored, inputs⟩ := ready.known hash top tip below up
    refine ⟨block, ?_, inputs⟩
    rw [fileBlock, found] at stored
    rw [fileBlock, later]
    exact grows.blocks _ block stored

end

end ChainState

end BitCrystal
