import BitCrystal.CoinHeights
import BitCrystal.BlockSelection
import BitCrystal.MempoolInputs

namespace BitCrystal

open Data BlockMap

/-! # The heights in the coins over runs of SetBestChain -/

namespace CBlockIndex

/-- An entry without its successor and its status, but for the places of its data. -/
def record (index : CBlockIndex) : CBlockIndex :=
  { index with nStatus := index.nStatus &&& BLOCK_HAVE_MASK, pnext := none }

theorem record_have {index : CBlockIndex} {flag : UInt32} (has : BLOCK_HAVE_MASK &&& flag = flag) :
    index.record.nStatus &&& flag = index.nStatus &&& flag := by
  rw [record, UInt32.and_assoc, has]

theorem record_getUndoPos (index : CBlockIndex) : index.record.getUndoPos = index.getUndoPos := by
  unfold getUndoPos
  rw [record_have (by decide)]
  rfl

theorem record_status {index : CBlockIndex} {nStatus : UInt32}
    (same : nStatus &&& BLOCK_HAVE_MASK = index.nStatus &&& BLOCK_HAVE_MASK) :
    record { index with nStatus } = index.record := by
  simp only [record, same]

end CBlockIndex

namespace BlockMap

abbrev SameRecords : BlockMap → BlockMap → Prop := Same CBlockIndex.record

/-- The undo data that the files have for a block bring back heights that fit below it. -/
def UndosStand [Hashing] [PubKeys] (map : BlockMap) (blockFiles : CDiskBlockPos → Option CBlock)
    (undoFiles : CDiskBlockPos → Bytes) : Prop :=
  ∀ hash index pos prev blockUndo block, map hash = some index → index.getUndoPos = some pos →
    index.pprev = some prev → CBlockUndo.readFromDisk (undoFiles pos) prev = some blockUndo →
    map.fileBlock blockFiles hash = some block → block.UndoNames (map.StandsAt blockFiles prev) index.nHeight blockUndo

/-- The place that FindUndoPos gives to a block that has none. -/
def undoPlace (env : Surroundings) (map : BlockMap) (hash : UInt256) : Option CDiskBlockPos := do
  let index ← map hash
  if index.getUndoPos = none then (env.findUndoPos hash).map fun nPos => ⟨index.nFile, nPos⟩ else none

/-- FindUndoPos gives every block a place of its own that no undo data have. -/
structure HandsOut (env : Surroundings) (map : BlockMap) : Prop where
  unused : ∀ hash pos, undoPlace env map hash = some pos →
    ∀ other index, map other = some index → index.getUndoPos ≠ some pos
  distinct : ∀ hash other pos, undoPlace env map hash = some pos → undoPlace env map other = some pos → hash = other

variable {map other : BlockMap} {env : Surroundings} {hash : UInt256} {index : CBlockIndex}

theorem SameRecords.shape (same : SameRecords map other) : SameShape map other :=
  same.field CBlockIndex.shape fun _ => rfl

theorem SameRecords.getUndoPos (same : SameRecords map other) (known : other hash = some index) :
    ∃ before, map hash = some before ∧ index.getUndoPos = before.getUndoPos ∧ index.pprev = before.pprev ∧
      index.nHeight = before.nHeight ∧ index.nFile = before.nFile := by
  obtain ⟨before, found, equal⟩ := same.entry known
  have undo : index.record.getUndoPos = before.record.getUndoPos := congrArg CBlockIndex.getUndoPos equal
  rw [CBlockIndex.record_getUndoPos, CBlockIndex.record_getUndoPos] at undo
  simp only [CBlockIndex.record, CBlockIndex.mk.injEq] at equal
  exact ⟨before, found, undo, equal.2.1, equal.2.2.2.1, equal.2.2.2.2.1⟩

theorem SameRecords.undoPlace_eq (same : SameRecords map other) : undoPlace env other = undoPlace env map := by
  funext hash
  unfold undoPlace
  cases known : other hash with
  | none =>
      have missing : map hash = none := SameShape.none (SameRecords.shape same).symm known
      rw [missing]
  | some index =>
      obtain ⟨before, found, undo, _, _, file⟩ := SameRecords.getUndoPos same known
      simp only [found, Option.bind_eq_bind, Option.bind_some, undo, file]

theorem HandsOut.same (handsOut : HandsOut env map) (same : SameRecords map other) : HandsOut env other := by
  refine ⟨fun hash pos place other' index known => ?_, fun hash other' pos place also => ?_⟩
  · rw [SameRecords.undoPlace_eq same] at place
    obtain ⟨before, found, undo, _⟩ := SameRecords.getUndoPos same known
    rw [undo]
    exact handsOut.unused hash pos place other' before found
  · rw [SameRecords.undoPlace_eq same] at place also
    exact handsOut.distinct hash other' pos place also

theorem UndosStand.same [Hashing] [PubKeys] {blockFiles : CDiskBlockPos → Option CBlock}
    {undoFiles : CDiskBlockPos → Bytes} (undos : map.UndosStand blockFiles undoFiles) (same : SameRecords map other) :
    other.UndosStand blockFiles undoFiles := by
  intro hash index pos prev blockUndo block known place up read stored
  obtain ⟨before, found, undo, above, height, _⟩ := SameRecords.getUndoPos same known
  rw [SameShape.standsAt_eq (SameRecords.shape same), height]
  rw [SameShape.fileBlock_eq (SameRecords.shape same)] at stored
  exact undos hash before pos prev blockUndo block found (undo.symm.trans place) (above.symm.trans up) read stored

/-- The entries above `top`, from its child on. -/
def Climbs (map : BlockMap) : UInt256 → List UInt256 → Prop
  | _, [] => True
  | top, hash :: rest => map.parent hash = some top ∧ Climbs map hash rest

theorem Climbs.shape (same : SameShape map other) {top : UInt256} {hashes : List UInt256} (climbs : map.Climbs top hashes) :
    other.Climbs top hashes := by
  induction hashes generalizing top with
  | nil => trivial
  | cons hash rest ih =>
      refine ⟨?_, ih climbs.2⟩
      rw [same.parent_eq]
      exact climbs.1

end BlockMap

theorem PathDown.climbs {map : BlockMap} {start : Option UInt256} {stop : UInt256} {hashes : List UInt256}
    (path : PathDown map start hashes (some stop)) (later : List UInt256)
    (above : ∀ top, start = some top → map.Climbs top later) : map.Climbs stop (hashes.reverse ++ later) := by
  induction hashes generalizing start later with
  | nil => exact above stop path
  | cons head rest ih =>
      obtain ⟨first, index, known, more⟩ := path
      rw [List.reverse_cons, List.append_assoc, List.singleton_append]
      refine ih more _ fun top up => ⟨(parent_of known).trans up, above head first⟩

/-! ## Connecting -/

section

variable [Hashing] [PubKeys] {env : Surroundings} {blockFiles : CDiskBlockPos → Option CBlock} {hash top : UInt256}
  {index : CBlockIndex} {w : Winding}

/-- What holds of the undo data whether blocks can be connected or not. -/
structure Winding.Recording (env : Surroundings) (blockFiles : CDiskBlockPos → Option CBlock) (w after : Winding) : Prop where
  view : after.view = w.view
  shape : SameShape w.mapBlockIndex after.mapBlockIndex
  undos : after.mapBlockIndex.UndosStand blockFiles after.undoFiles
  handsOut : HandsOut env after.mapBlockIndex

theorem Winding.Recording.status {after : Winding} (recording : Winding.Recording env blockFiles w after)
    {mapBlockIndex : BlockMap} (same : SameRecords after.mapBlockIndex mapBlockIndex) :
    Winding.Recording env blockFiles w { after with mapBlockIndex } :=
  ⟨recording.view, recording.shape.trans (SameRecords.shape same), recording.undos.same same, recording.handsOut.same same⟩

theorem writeUndo_recording (known : w.mapBlockIndex hash = some index) {block : CBlock} {blockundo : CBlockUndo}
    (stored : w.mapBlockIndex.fileBlock blockFiles hash = some block) (storable : blockundo.Storable)
    (named : ∀ prev, index.pprev = some prev →
      block.UndoNames (w.mapBlockIndex.StandsAt blockFiles prev) index.nHeight blockundo.onDisk)
    (undos : w.mapBlockIndex.UndosStand blockFiles w.undoFiles) (handsOut : HandsOut env w.mapBlockIndex) :
    Winding.Recording env blockFiles w (writeUndo env hash index blockundo w).state := by
  have unchanged : Winding.Recording env blockFiles w w := ⟨rfl, .refl _, undos, handsOut⟩
  unfold writeUndo
  split
  · exact unchanged
  · rename_i unplaced
    split
    · exact unchanged
    · exact unchanged
    · rename_i nPos pprev gives up
      split
      · have place : undoPlace env w.mapBlockIndex hash = some ⟨index.nFile, nPos⟩ := by
          simp [undoPlace, known, unplaced, gives]
        generalize posEq : (⟨index.nFile, nPos⟩ : CDiskBlockPos) = pos at place
        let change : CBlockIndex → CBlockIndex := fun index =>
          { index with nUndoPos := nPos, nStatus := index.nStatus ||| BLOCK_HAVE_UNDO }
        have own : w.mapBlockIndex.update hash change hash = some (change index) := by
          rw [update_same, known]
          rfl
        have placed : (change index).getUndoPos = some pos := by
          rw [← posEq]
          exact if_pos (and_or_ne_zero (by decide))
        have shape : SameShape w.mapBlockIndex (w.mapBlockIndex.update hash change) := .update hash fun _ => rfl
        have gone : undoPlace env (w.mapBlockIndex.update hash change) hash = none := by
          simp [undoPlace, own, placed]
        have others : ∀ other, other ≠ hash →
            undoPlace env (w.mapBlockIndex.update hash change) other = undoPlace env w.mapBlockIndex other := by
          intro other different
          rw [undoPlace, undoPlace, update_other different]
        refine ⟨rfl, shape, ?_, ?_, ?_⟩
        · intro other entry otherPos prev blockUndo otherBlock found otherPlace above read otherStored
          rw [SameShape.standsAt_eq shape]
          rw [SameShape.fileBlock_eq shape] at otherStored
          change w.mapBlockIndex.update hash change other = some entry at found
          dsimp only at read
          by_cases same : other = hash
          · subst same
            rw [own] at found
            cases found
            rw [placed] at otherPlace
            cases otherPlace
            rw [show index.pprev = some prev from above] at up
            cases up
            rw [if_pos rfl, ← List.append_nil (CBlockUndo.writeToDisk _ _), storable.readFromDisk_writeToDisk,
              Option.some.injEq] at read
            rw [stored] at otherStored
            cases otherStored
            rw [← read]
            exact named _ above
          · rw [update_other same] at found
            have different : otherPos ≠ pos := by
              rintro rfl
              exact handsOut.unused hash otherPos place other entry found otherPlace
            rw [if_neg different] at read
            exact undos other entry otherPos prev blockUndo otherBlock found otherPlace above read otherStored
        · intro other otherPos otherPlace third entry found recorded
          change w.mapBlockIndex.update hash change third = some entry at found
          change undoPlace env (w.mapBlockIndex.update hash change) other = some otherPos at otherPlace
          by_cases same : other = hash
          · rw [same, gone] at otherPlace
            contradiction
          · rw [others other same] at otherPlace
            by_cases same' : third = hash
            · subst same'
              rw [own] at found
              cases found
              rw [placed] at recorded
              cases recorded
              exact same (handsOut.distinct _ _ _ otherPlace place)
            · rw [update_other same'] at found
              exact handsOut.unused other otherPos otherPlace third entry found recorded
        · intro other third otherPos otherPlace thirdPlace
          change undoPlace env (w.mapBlockIndex.update hash change) other = some otherPos at otherPlace
          change undoPlace env (w.mapBlockIndex.update hash change) third = some otherPos at thirdPlace
          by_cases same : other = hash
          · rw [same, gone] at otherPlace
            contradiction
          · by_cases same' : third = hash
            · rw [same', gone] at thirdPlace
              contradiction
            · rw [others other same] at otherPlace
              rw [others third same'] at thirdPlace
              exact handsOut.distinct other third otherPos otherPlace thirdPlace
      · exact unchanged

theorem writeConnected_recording (known : w.mapBlockIndex hash = some index) {block : CBlock} {blockundo : CBlockUndo}
    (stored : w.mapBlockIndex.fileBlock blockFiles hash = some block) (storable : blockundo.Storable)
    (named : ∀ prev, index.pprev = some prev →
      block.UndoNames (w.mapBlockIndex.StandsAt blockFiles prev) index.nHeight blockundo.onDisk)
    (undos : w.mapBlockIndex.UndosStand blockFiles w.undoFiles) (handsOut : HandsOut env w.mapBlockIndex) :
    Winding.Recording env blockFiles w (writeConnected env hash index blockundo w).state := by
  unfold writeConnected
  apply Step.andThen_state
  · split
    · apply Step.andThen_state (writeUndo_recording known stored storable named undos handsOut)
      intro state recording
      exact recording.status (.update hash fun _ => CBlockIndex.record_status (by
        rw [and_or_of_disjoint (by decide), UInt32.and_assoc]
        rfl))
    · exact ⟨rfl, .refl _, undos, handsOut⟩
  · intro state recording
    split <;> exact recording

variable [ScriptMachine] {occurring : Set CTransaction}

theorem connectTip_heights (undos : w.mapBlockIndex.UndosStand blockFiles w.undoFiles)
    (handsOut : HandsOut env w.mapBlockIndex) (tree : w.mapBlockIndex.Tree)
    (up : w.mapBlockIndex.parent hash = some top) (connectable : w.mapBlockIndex.Connectable hash)
    (wellFormed : w.view.WellFormed) (placed : w.view.Placed (w.mapBlockIndex.StandsAt blockFiles top)) :
    let step := connectTip env blockFiles hash w
    step.state.mapBlockIndex.UndosStand blockFiles step.state.undoFiles ∧ HandsOut env step.state.mapBlockIndex ∧
      (step.failure = none → step.state.view.Placed (w.mapBlockIndex.StandsAt blockFiles hash)) := by
  dsimp only
  unfold connectTip
  cases known : w.mapBlockIndex hash with
  | none => exact ⟨undos, handsOut, fun ended => by cases ended⟩
  | some index =>
      obtain ⟨notGenesis, entry⟩ := connectable
      obtain ⟨own, height⟩ := entry index known
      dsimp only
      cases read : readFromDisk blockFiles index with
      | none => exact ⟨undos, handsOut, fun ended => by cases ended⟩
      | some block =>
          obtain ⟨found, same⟩ := readFromDisk_eq_some read
          rw [own, Option.some.injEq] at same
          have stored : w.mapBlockIndex.fileBlock blockFiles hash = some block := by simp [fileBlock, known, found]
          dsimp only
          cases connected : block.connectBlock env.settings w.mapBlockIndex index w.view false with
          | error reason => exact ⟨undos, handsOut, fun ended => by cases ended⟩
          | ok result =>
              obtain ⟨view, blockundo⟩ := result
              obtain ⟨kept, _, vtxundo, rfl, storable, named⟩ := connectBlock_placed (by rw [same]; exact notGenesis)
                height connected wellFormed placed
              rw [← height_of known, during_eq tree up stored] at kept
              have recording := writeConnected_recording known stored storable (fun prev above => by
                rw [parent_of known, above] at up
                cases up
                exact named) undos handsOut
              dsimp only
              unfold Step.andThen
              split
              · exact ⟨recording.undos, recording.handsOut, fun ended => by simp_all⟩
              · exact ⟨recording.undos, recording.handsOut, fun _ => kept⟩

theorem connectTips_heights (collisionFree : CTxMemPool.CollisionFree occurring)
    (occurs : BlocksOccur occurring blockFiles) {hashes : List UInt256}
    (undos : w.mapBlockIndex.UndosStand blockFiles w.undoFiles) (handsOut : HandsOut env w.mapBlockIndex)
    (tree : w.mapBlockIndex.Tree) (climbs : w.mapBlockIndex.Climbs top hashes)
    (connectable : ∀ hash ∈ hashes, w.mapBlockIndex.Connectable hash) (wellFormed : w.view.WellFormed)
    (genuine : w.view.Genuine occurring) (placed : w.view.Placed (w.mapBlockIndex.StandsAt blockFiles top)) :
    let loop := connectTips env blockFiles hashes w
    loop.1.mapBlockIndex.UndosStand blockFiles loop.1.undoFiles ∧
      (loop.2 = none → loop.1.view.Placed (w.mapBlockIndex.StandsAt blockFiles (hashes.getLast?.getD top))) := by
  dsimp only
  induction hashes generalizing w top with
  | nil => exact ⟨undos, fun _ => placed⟩
  | cons hash rest ih =>
      obtain ⟨stand, gives, moves⟩ := connectTip_heights undos handsOut tree climbs.1
        (connectable hash List.mem_cons_self) wellFormed placed
      have turn : (_ → UndoStorable (connectTip env blockFiles hash w).state.undoFiles) ∧ _ :=
        connectTip_flows collisionFree occurs (connectable hash List.mem_cons_self) wellFormed genuine
      have shape : SameShape w.mapBlockIndex (connectTip env blockFiles hash w).state.mapBlockIndex :=
        (connectTip_writes hash w).shape
      rw [connectTips]
      cases failed : (connectTip env blockFiles hash w).failure with
      | some reason => exact ⟨stand, fun ended => by cases ended⟩
      | none =>
          obtain ⟨block, _, _, flow, _⟩ := turn.2 failed
          have kept := moves failed
          rw [← SameShape.standsAt_eq shape] at kept
          obtain ⟨others, last⟩ := ih stand gives (shape.tree tree) (climbs.2.shape shape)
            (fun other member => (connectable other (List.mem_cons_of_mem hash member)).shape shape)
            flow.wellFormed flow.genuine kept
          refine ⟨others, fun ended => ?_⟩
          have reached := last ended
          rw [SameShape.standsAt_eq shape] at reached
          rw [List.getLast?_cons, Option.getD_some]
          exact reached

end

/-! ## Disconnecting -/

theorem disconnectTips_heights [Hashing] [PubKeys] {s : ChainState} (tree : s.mapBlockIndex.Tree)
    (undos : s.mapBlockIndex.UndosStand s.blockFiles s.undoFiles) {hashes : List UInt256} {top stop : UInt256}
    {u last : Unwinding} (path : PathDown s.mapBlockIndex (some top) hashes (some stop))
    (placed : u.view.Placed (s.mapBlockIndex.StandsAt s.blockFiles top))
    (run : hashes.foldlM (disconnectTip s) u = .ok last) :
    last.view.Placed (s.mapBlockIndex.StandsAt s.blockFiles stop) := by
  induction hashes generalizing top u with
  | nil =>
      cases run
      rw [← Option.some.inj path]
      exact placed
  | cons hash rest ih =>
      have above := path.parent_ne_none hash List.mem_cons_self
      obtain ⟨first, index, known, more⟩ := path
      cases first
      obtain ⟨next, step, remaining⟩ := foldlM_cons_eq_ok.mp run
      simp only [disconnectTip, bind_eq_ok, expect_eq_ok, require_eq_ok, pure_eq_ok, Prod.exists,
        exists_const] at step
      obtain ⟨entry, found, block, read, view, fClean, undone, clean, rfl⟩ := step
      subst clean
      rw [known] at found
      cases found
      have stored : s.mapBlockIndex.fileBlock s.blockFiles hash = some block := by
        simp [fileBlock, known, (readFromDisk_eq_some read).1]
      rw [parent_of known] at above
      obtain ⟨prev, up⟩ := Option.ne_none_iff_exists'.mp above
      rw [up] at more
      rw [← during_eq tree ((parent_of known).trans up) stored, height_of known] at placed
      refine ih more (disconnectBlock_placed undone placed fun pos prev' blockUndo place up' accepted => ?_) remaining
      rw [up] at up'
      cases up'
      exact undos hash index pos prev blockUndo block known place up accepted stored

/-! ## One call of SetBestChain -/

namespace ChainState

/-- The coins name the blocks of the active chain that stand for them, and the undo data
those of the branch below. -/
structure HeightsSound [Hashing] [PubKeys] (s : ChainState) : Prop where
  stored : ∀ hash, s.mapBlockIndex.parent hash ≠ none → ∃ block, s.mapBlockIndex.fileBlock s.blockFiles hash = some block
  undos : s.mapBlockIndex.UndosStand s.blockFiles s.undoFiles
  coins : ∀ best, s.pindexBest = some best → s.pcoinsTip.Placed (s.mapBlockIndex.StandsAt s.blockFiles best)

/-- The places of undo data are those of a part of the loop that connects blocks. -/
def Recorded [Hashing] [PubKeys] [ScriptMachine] (env : Surroundings) (s : ChainState) (pindexNew : UInt256)
    (after : ChainState) : Prop :=
  (SameRecords s.mapBlockIndex after.mapBlockIndex ∧ after.undoFiles = s.undoFiles) ∨
    ∃ switch u w stop, s.unwind pindexNew = .ok (switch, u) ∧ s.wind env switch u = (w, stop) ∧
      SameRecords w.mapBlockIndex after.mapBlockIndex ∧ after.undoFiles = w.undoFiles

theorem invalidBlockFound_records (reorganise : ChainState → Outcome) {s : ChainState} {hash : UInt256}
    (leaf : (s.mapBlockIndex hash).bind CBlockIndex.pnext = none) :
    SameRecords s.mapBlockIndex (s.invalidBlockFound reorganise hash).state.mapBlockIndex ∧
      (s.invalidBlockFound reorganise hash).state.undoFiles = s.undoFiles := by
  have found (t : ChainState) : SameRecords t.mapBlockIndex (t.invalidChainFound hash).state.mapBlockIndex ∧
      (t.invalidChainFound hash).state.undoFiles = t.undoFiles := by
    unfold invalidChainFound
    split
    · exact ⟨.refl _, rfl⟩
    · exact ⟨.refl _, rfl⟩
  have flagged : SameRecords s.mapBlockIndex (s.markInvalid hash).mapBlockIndex :=
    .update hash fun _ => CBlockIndex.record_status (and_or_of_disjoint (by decide))
  obtain ⟨same, files⟩ := found (s.markInvalid hash)
  have next := ((markInvalid_same s hash).trans (invalidChainFound_same _ hash)).pnext hash
  rw [leaf] at next
  unfold invalidBlockFound
  rcases Outcome.andThen_state ((s.markInvalid hash).invalidChainFound hash) _ with stays | goes
  · rw [stays]
    exact ⟨flagged.trans same, files⟩
  · rw [goes]
    simp only [next, Option.isSome_none, Bool.false_eq_true, if_false]
    exact ⟨flagged.trans same, files⟩

theorem connectFailed_records (reorganise : ChainState → Outcome) {s : ChainState} (pindexNew : UInt256)
    {hash : UInt256} (reason : Failure) (leaf : (s.mapBlockIndex hash).bind CBlockIndex.pnext = none) :
    SameRecords s.mapBlockIndex (s.connectFailed reorganise pindexNew hash reason).state.mapBlockIndex ∧
      (s.connectFailed reorganise pindexNew hash reason).state.undoFiles = s.undoFiles := by
  have found : (s.invalidChainFound pindexNew).state.mapBlockIndex = s.mapBlockIndex ∧
      (s.invalidChainFound pindexNew).state.undoFiles = s.undoFiles := by
    unfold invalidChainFound
    split
    · exact ⟨rfl, rfl⟩
    · exact ⟨rfl, rfl⟩
  have leaf' : ((s.invalidChainFound pindexNew).state.mapBlockIndex hash).bind CBlockIndex.pnext = none := by
    rw [found.1]
    exact leaf
  obtain ⟨same, files⟩ := invalidBlockFound_records reorganise leaf'
  rw [found.1] at same
  rw [found.2] at files
  unfold connectFailed
  split
  · rcases Outcome.andThen_state ((s.invalidChainFound pindexNew).andThen fun s => s.invalidBlockFound reorganise hash)
      (fun s => ⟨s, .error reason⟩) with outer | outer
    all_goals
      rw [outer]
      rcases Outcome.andThen_state (s.invalidChainFound pindexNew) (fun s => s.invalidBlockFound reorganise hash)
        with inner | inner
      · rw [inner, found.1]
        exact ⟨.refl _, found.2⟩
      · rw [inner]
        exact ⟨same, files⟩
  · exact ⟨.refl _, rfl⟩

section

variable [Hashing] [PubKeys] [ScriptMachine] {occurring : Set CTransaction} {s after : ChainState}
  {env : Surroundings} {pindexNew : UInt256} {switch : Switch} {u : Unwinding} {w : Winding}

theorem commit_records {view : CoinsView} {vResurrect vDelete : List CTransaction} {reason : Failure}
    (run : (s.commit env pindexNew switch view vResurrect vDelete).result = .error reason)
    (returns : reason.returnsFalse = true) :
    (s.commit env pindexNew switch view vResurrect vDelete).state.mapBlockIndex = s.mapBlockIndex ∧
      (s.commit env pindexNew switch view vResurrect vDelete).state.undoFiles = s.undoFiles := by
  have stopped : ∀ t : ChainState, (t.moveTip env pindexNew switch vResurrect vDelete).result ≠ .error reason := by
    intro t failed
    have unhandled := moveTip_unhandled failed
    cases reason <;> contradiction
  unfold commit at run ⊢
  dsimp only at run ⊢
  split at run
  · split at run
    · rename_i writes space
      rw [if_pos writes, if_pos space]
      exact ⟨rfl, rfl⟩
    · split at run
      · rename_i writes space coins
        rw [if_pos writes, if_neg space, if_pos coins]
        exact ⟨rfl, rfl⟩
      · exact absurd run (stopped _)
  · exact absurd run (stopped _)

theorem setBestChain_recorded {reorganise : ChainState → Outcome} {reason : Failure} (consistent : s.Consistent)
    (run : (s.setBestChain reorganise env pindexNew).result = .error reason) (returns : reason.returnsFalse = true) :
    s.Recorded env pindexNew (s.setBestChain reorganise env pindexNew).state := by
  revert run
  unfold setBestChain
  cases unwound : s.unwind pindexNew with
  | error cause => exact fun _ => Or.inl ⟨.refl _, rfl⟩
  | ok result =>
      obtain ⟨switch, u⟩ := result
      dsimp only
      cases wound : s.wind env switch u with
      | mk w stop =>
          have finish : ∀ after : ChainState, SameRecords w.mapBlockIndex after.mapBlockIndex →
              after.undoFiles = w.undoFiles → s.Recorded env pindexNew after :=
            fun after records files => Or.inr ⟨switch, u, w, stop, unwound, wound, records, files⟩
          cases stop with
          | some failure =>
              obtain ⟨cause, hash⟩ := failure
              obtain ⟨pfork, plans, _⟩ := unwind_plans consistent.tree unwound
              have leaf := consistent.leaf plans (connectTips_failed wound)
              obtain ⟨records, files⟩ := connectFailed_records reorganise pindexNew cause
                (((written_same s wound).pnext hash).trans leaf)
              exact fun _ => finish _ records files
          | none =>
              intro run
              obtain ⟨map, files⟩ := commit_records run returns
              refine finish _ ?_ files
              rw [map]
              exact .refl _

/-- What a part of the loop that connects blocks leaves of the undo data, and the view it ends with. -/
theorem HeightsSound.wound (sound : s.HeightsSound) (ready : s.Ready occurring)
    (collisionFree : CTxMemPool.CollisionFree occurring) (handsOut : HandsOut env s.mapBlockIndex)
    (unwound : s.unwind pindexNew = .ok (switch, u)) :
    (s.wind env switch u).1.mapBlockIndex.UndosStand s.blockFiles (s.wind env switch u).1.undoFiles ∧
      ((s.wind env switch u).2 = none →
        (s.wind env switch u).1.view.Placed (s.mapBlockIndex.StandsAt s.blockFiles pindexNew)) := by
  obtain ⟨best, fork, tip, plans⟩ := ready.plans unwound
  obtain ⟨kept, made, _⟩ := ready.unwound unwound
  have view : u.view.Placed (s.mapBlockIndex.StandsAt s.blockFiles fork) := by
    simp only [unwind, bind_eq_ok, pure_eq_ok, Prod.mk.injEq] at unwound
    obtain ⟨plan, _, unwinding, disconnected, rfl, rfl⟩ := unwound
    exact disconnectTips_heights ready.indexed.tree sound.undos plans.disconnect (sound.coins best tip) disconnected
  have climbs := plans.connect.climbs [] fun _ _ => trivial
  rw [List.reverse_reverse, List.append_nil] at climbs
  have connectable : ∀ hash ∈ switch.vConnect, s.mapBlockIndex.Connectable hash := fun hash member =>
    ready.indexed.connectable (plans.connect.parent_ne_none hash (List.mem_reverse.mpr member))
  have loop := connectTips_heights (w := ⟨u.view, [], s.mapBlockIndex, s.undoFiles⟩) collisionFree
    ready.indexed.occurs sound.undos handsOut ready.indexed.tree climbs connectable kept made view
  have last : switch.vConnect.getLast?.getD fork = pindexNew := by
    have connect := plans.connect
    rw [← List.head?_reverse]
    cases reversed : switch.vConnect.reverse with
    | nil =>
        rw [reversed] at connect
        exact (Option.some.inj connect).symm
    | cons head rest =>
        rw [reversed] at connect
        exact (Option.some.inj connect.1).symm
  rw [last] at loop
  exact loop

theorem HeightsSound.moved (sound : s.HeightsSound) (ready : s.Ready occurring)
    (collisionFree : CTxMemPool.CollisionFree occurring) (handsOut : HandsOut env s.mapBlockIndex)
    (moved : s.Moved env pindexNew switch u w after) : after.HeightsSound := by
  obtain ⟨undos, placed⟩ := sound.wound ready collisionFree handsOut moved.unwound
  obtain ⟨_, winds⟩ := ready.wound collisionFree moved.unwound
  obtain ⟨flows, _⟩ := winds w moved.wound
  rw [moved.wound] at undos placed
  refine ⟨?_, ?_, ?_⟩
  · rw [moved.shape.parent_eq, moved.shape.fileBlock_eq, moved.blocks]
    exact sound.stored
  · rw [moved.index, moved.blocks, moved.undos]
    exact undos.same (relink_same (fun _ _ => rfl) switch)
  · intro best tip
    rw [moved.best] at tip
    cases tip
    rw [SameShape.standsAt_eq moved.shape, moved.blocks, moved.coins, newTip]
    split
    · exact (placed rfl).reload flows.wellFormed
    · exact placed rfl

theorem HeightsSound.stayed (sound : s.HeightsSound) (ready : s.Ready occurring)
    (collisionFree : CTxMemPool.CollisionFree occurring) (handsOut : HandsOut env s.mapBlockIndex)
    (stayed : s.Stayed env pindexNew after) (recorded : s.Recorded env pindexNew after) : after.HeightsSound := by
  have shape := stayed.tree.shape
  refine ⟨?_, ?_, ?_⟩
  · rw [shape.parent_eq, shape.fileBlock_eq, stayed.blocks]
    exact sound.stored
  · rw [stayed.blocks]
    rcases recorded with ⟨records, files⟩ | ⟨switch, u, w, stop, unwound, wound, records, files⟩
    · rw [files]
      exact sound.undos.same records
    · obtain ⟨undos, _⟩ := sound.wound ready collisionFree handsOut unwound
      rw [wound] at undos
      rw [files]
      exact undos.same records
  · rw [stayed.memory.best, stayed.memory.coins, SameShape.standsAt_eq shape, stayed.blocks]
    exact sound.coins

/-! ## New blocks -/

omit [Hashing] [PubKeys] [ScriptMachine] in
theorem Grows.known {hash : UInt256} (grows : Grows occurring s after) (known : (s.mapBlockIndex hash).isSome) :
    after.mapBlockIndex hash = s.mapBlockIndex hash := by
  obtain ⟨index, found⟩ := Option.isSome_iff_exists.mp known
  rw [found]
  exact grows.index hash index found

omit [PubKeys] [ScriptMachine] in
theorem Grows.holds_iff {hash txid : UInt256} (grows : Grows occurring s after) (known : (s.mapBlockIndex hash).isSome)
    (stored : ∀ hash, s.mapBlockIndex.parent hash ≠ none →
      ∃ block, s.mapBlockIndex.fileBlock s.blockFiles hash = some block) :
    after.mapBlockIndex.Holds after.blockFiles hash txid ↔ s.mapBlockIndex.Holds s.blockFiles hash txid := by
  have parent : after.mapBlockIndex.parent hash = s.mapBlockIndex.parent hash := by
    rw [BlockMap.parent, BlockMap.parent, grows.known known]
  unfold BlockMap.Holds
  rw [parent]
  refine and_congr_right fun up => ?_
  obtain ⟨block, found⟩ := stored hash up
  have later : after.mapBlockIndex.fileBlock after.blockFiles hash = some block := by
    rw [fileBlock, grows.known known]
    obtain ⟨pos, place, present⟩ := Option.bind_eq_some_iff.mp found
    rw [place]
    exact grows.blocks pos block present
  rw [found, later]

omit [PubKeys] [ScriptMachine] in
theorem Grows.standsAt_eq {top : UInt256} (grows : Grows occurring s after) (tree : s.mapBlockIndex.Tree)
    (known : (s.mapBlockIndex top).isSome)
    (stored : ∀ hash, s.mapBlockIndex.parent hash ≠ none →
      ∃ block, s.mapBlockIndex.fileBlock s.blockFiles hash = some block) :
    after.mapBlockIndex.StandsAt after.blockFiles top = s.mapBlockIndex.StandsAt s.blockFiles top := by
  have branch : ∀ hash, Ancestor after.mapBlockIndex.parent hash top ↔ Ancestor s.mapBlockIndex.parent hash top :=
    fun hash => ⟨fun path => grows.ancestor_before tree path known, grows.ancestor⟩
  have height : ∀ hash, Ancestor s.mapBlockIndex.parent hash top → after.mapBlockIndex.height hash = s.mapBlockIndex.height hash := by
    intro hash path
    rw [BlockMap.height, BlockMap.height, grows.known (tree.known_of_ancestor path known)]
  have holds : ∀ hash txid, Ancestor s.mapBlockIndex.parent hash top →
      (after.mapBlockIndex.Holds after.blockFiles hash txid ↔ s.mapBlockIndex.Holds s.blockFiles hash txid) :=
    fun hash txid path => grows.holds_iff (tree.known_of_ancestor path known) stored
  funext txid nHeight
  apply propext
  constructor
  · rintro ⟨hash, ⟨above, held, highest⟩, rfl⟩
    have path := (branch hash).mp above
    refine ⟨hash, ⟨path, (holds hash txid path).mp held, fun other up also => ?_⟩, (height hash path).symm⟩
    rw [← height hash path, ← height other up]
    exact highest other ((branch other).mpr up) ((holds other txid up).mpr also)
  · rintro ⟨hash, ⟨path, held, highest⟩, rfl⟩
    refine ⟨hash, ⟨(branch hash).mpr path, (holds hash txid path).mpr held, fun other up also => ?_⟩, height hash path⟩
    have up' := (branch other).mp up
    rw [height hash path, height other up']
    exact highest other up' ((holds other txid up').mp also)

omit [ScriptMachine] in
theorem HeightsSound.grown (sound : s.HeightsSound) (ready : s.Ready occurring) (grows : Grows occurring s after)
    (stored : ∀ hash, after.mapBlockIndex.parent hash ≠ none →
      ∃ block, after.mapBlockIndex.fileBlock after.blockFiles hash = some block)
    (unrecorded : ∀ hash index, after.mapBlockIndex hash = some index → s.mapBlockIndex hash = none →
      index.getUndoPos = none) : after.HeightsSound := by
  have tree := ready.indexed.tree
  refine ⟨stored, ?_, ?_⟩
  · intro hash index pos prev blockUndo block found place up read present
    cases before : s.mapBlockIndex hash with
    | none =>
        rw [unrecorded hash index found before] at place
        contradiction
    | some entry =>
        have same := grows.index hash entry before
        rw [found] at same
        cases same
        have above : s.mapBlockIndex.parent hash = some prev := (parent_of before).trans up
        obtain ⟨previous, known, _⟩ := tree.above hash index prev before up
        obtain ⟨other, also⟩ := sound.stored hash (by rw [above]; simp)
        rw [grows.standsAt_eq tree (by rw [known]; rfl) sound.stored]
        rw [grows.undos] at read
        have equal : other = block := by
          obtain ⟨pos, spot, inFile⟩ := Option.bind_eq_some_iff.mp also
          rw [fileBlock, found] at present
          rw [before] at spot
          rw [spot, Option.bind_some, grows.blocks pos other inFile] at present
          exact Option.some.inj present
        exact sound.undos hash index pos prev blockUndo block before place up read (equal ▸ also)
  · intro best tip
    rw [grows.best] at tip
    obtain ⟨top, same, known⟩ := ready.started
    rw [tip] at same
    cases same
    rw [grows.standsAt_eq tree known sound.stored, grows.coins]
    exact sound.coins best tip

/-! ## Runs -/

/-- The states that a node without coins reaches while it receives blocks and switches
its best chain. -/
inductive CoinRun (occurring : Set CTransaction) : ChainState → Prop
  | start {s : ChainState} (ready : s.Ready occurring) (spent : ∀ txid, s.pcoinsTip.entry txid = none)
      (stored : ∀ hash, s.mapBlockIndex.parent hash ≠ none →
        ∃ block, s.mapBlockIndex.fileBlock s.blockFiles hash = some block)
      (unrecorded : ∀ hash index, s.mapBlockIndex hash = some index → index.getUndoPos = none) : CoinRun occurring s
  | grow {s after : ChainState} (run : CoinRun occurring s) (grows : Grows occurring s after)
      (stored : ∀ hash, after.mapBlockIndex.parent hash ≠ none →
        ∃ block, after.mapBlockIndex.fileBlock after.blockFiles hash = some block)
      (unrecorded : ∀ hash index, after.mapBlockIndex hash = some index → s.mapBlockIndex hash = none →
        index.getUndoPos = none) : CoinRun occurring after
  | setBestChain {s : ChainState} {reorganise : ChainState → Outcome} {env : Surroundings} {pindexNew : UInt256}
      (run : CoinRun occurring s) (handsOut : HandsOut env s.mapBlockIndex) (writes : WritesCoins env s pindexNew)
      (returns : Returns (s.setBestChain reorganise env pindexNew).result) :
      CoinRun occurring (s.setBestChain reorganise env pindexNew).state

theorem CoinRun.sound (collisionFree : CTxMemPool.CollisionFree occurring) (run : CoinRun occurring s) :
    s.Ready occurring ∧ s.HeightsSound := by
  induction run with
  | start ready spent stored unrecorded =>
      refine ⟨ready, stored, ?_, ?_⟩
      · intro hash index pos prev blockUndo block known place
        rw [unrecorded hash index known] at place
        contradiction
      · intro best tip txid entry found
        rw [spent] at found
        contradiction
  | grow _ grows stored unrecorded ih => exact ⟨ih.1.grown grows, ih.2.grown ih.1 grows stored unrecorded⟩
  | @setBestChain s reorganise env pindexNew _ handsOut writes returns ih =>
      obtain ⟨ready, sound⟩ := ih
      cases verdict : (s.setBestChain reorganise env pindexNew).result with
      | ok done =>
          obtain ⟨switch, u, w, moved⟩ := setBestChain_ok verdict
          exact ⟨ready.moved collisionFree moved, sound.moved ready collisionFree handsOut moved⟩
      | error reason =>
          have back := returns.of_error verdict
          have stayed := setBestChain_error ready.linked.consistent writes verdict back
          have recorded := setBestChain_recorded ready.linked.consistent verdict back
          exact ⟨ready.stayed collisionFree stayed, sound.stayed ready collisionFree handsOut stayed recorded⟩

/-- In every state of a run, however many reorganisations it has seen, unspent coins carry
the height of the highest block of the active chain that has their transaction. -/
theorem coins_named (collisionFree : CTxMemPool.CollisionFree occurring) (s : ChainState) (run : CoinRun occurring s)
    (best : UInt256) (tip : s.pindexBest = some best) :
    s.pcoinsTip.Placed (s.mapBlockIndex.StandsAt s.blockFiles best) :=
  (run.sound collisionFree).2.coins best tip

end

end ChainState

/-! ## A sample -/

namespace Sample

/-- Two blocks with a coinbase, of which the second one is not connected, and no coins yet. -/
def coinless : ChainState :=
  { openBlock [coinbase] with pcoinsTip := ⟨fun _ => none, some 5⟩ }

/-- FindUndoPos gives every block a place of its own. -/
def apart : Surroundings :=
  { sound with findUndoPos := fun hash => some (if hash = 5 then 5 else 6) }

theorem coinless_ready : coinless.Ready remarks := by
  have ready : (openBlock [coinbase]).Ready remarks := openBlock_ready (by simp [remarks])
  have indexed := ready.indexed
  exact ⟨⟨indexed.tree, indexed.heights, indexed.genesis, indexed.occurs⟩, ⟨indexed.tree, rfl, ready.linked.next⟩,
    ready.started, fun _ _ found => (by cases found), fun _ _ found => (by cases found), ready.undos, ready.known⟩

theorem coinless_run : ChainState.CoinRun remarks coinless := by
  refine .start coinless_ready (fun _ => rfl) (fun hash up => ?_) fun hash index known => ?_
  · obtain ⟨prev, above⟩ := Option.ne_none_iff_exists'.mp up
    obtain ⟨index, known, _⟩ := Option.bind_eq_some_iff.mp above
    exact ⟨block index.dataPos.nPos [coinbase], by rw [fileBlock, known]; rfl⟩
  · rcases twoBlocks_index known with ⟨_, rfl⟩ | ⟨_, rfl⟩ <;> rfl

theorem coinless_handsOut : HandsOut apart coinless.mapBlockIndex := by
  have place : ∀ hash pos, undoPlace apart coinless.mapBlockIndex hash = some pos → hash = 5 ∧ pos = ⟨0, 5⟩ ∨
      hash = 6 ∧ pos = ⟨0, 6⟩ := by
    intro hash pos gives
    obtain ⟨index, known, _⟩ := Option.bind_eq_some_iff.mp gives
    rcases twoBlocks_index known with ⟨rfl, _⟩ | ⟨rfl, _⟩
    · exact Or.inl ⟨rfl, (Option.some.inj gives).symm⟩
    · exact Or.inr ⟨rfl, (Option.some.inj gives).symm⟩
  constructor
  · intro hash pos _ other index known
    rcases twoBlocks_index known with ⟨_, rfl⟩ | ⟨_, rfl⟩ <;> exact fun equal => by cases equal
  · intro hash other pos first second
    rcases place hash pos first with ⟨rfl, rfl⟩ | ⟨rfl, rfl⟩ <;> rcases place other _ second with ⟨rfl, same⟩ | ⟨rfl, same⟩
    all_goals first | rfl | cases same

theorem coinless_switches : (coinless.setBestChain idle apart 6).result.isOk = true := by decide +kernel

theorem coinless_switched : ChainState.CoinRun remarks (coinless.setBestChain idle apart 6).state := by
  obtain ⟨done, result⟩ := ok_of_isOk coinless_switches
  refine .setBestChain coinless_run coinless_handsOut (fun _ _ _ => ⟨rfl, rfl⟩) ?_
  rw [result]
  trivial

end Sample

open Sample in
theorem coins_named_sample : (coinless.setBestChain idle apart 6).state.pcoinsTip.Placed
    ((coinless.setBestChain idle apart 6).state.mapBlockIndex.StandsAt
      (coinless.setBestChain idle apart 6).state.blockFiles 6) := by
  obtain ⟨done, result⟩ := ok_of_isOk coinless_switches
  obtain ⟨_, _, _, moved⟩ := ChainState.setBestChain_ok result
  exact ChainState.coins_named remarks_collisionFree _ coinless_switched 6 moved.best

end BitCrystal
