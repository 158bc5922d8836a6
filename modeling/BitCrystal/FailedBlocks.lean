import BitCrystal.ProcessBlock

namespace BitCrystal

open Data BlockMap

/-! # The failure flags of the block tree -/

theorem and_or_of_disjoint {status flag mask : UInt32} (disjoint : flag &&& mask = 0) :
    (status ||| flag) &&& mask = status &&& mask := by
  have none := congrArg UInt32.toBitVec disjoint
  apply UInt32.toBitVec_inj.mp
  simp only [UInt32.toBitVec_and, UInt32.toBitVec_or, UInt32.toBitVec_zero] at none ⊢
  rw [BitVec.and_or_distrib_right, none, BitVec.or_zero]

theorem and_or_ne_zero {status flag mask : UInt32} (common : flag &&& mask ≠ 0) : (status ||| flag) &&& mask ≠ 0 := by
  intro zero
  apply common
  have none := congrArg UInt32.toBitVec zero
  apply UInt32.toBitVec_inj.mp
  simp only [UInt32.toBitVec_and, UInt32.toBitVec_or, UInt32.toBitVec_zero, BitVec.and_or_distrib_right,
    BitVec.or_eq_zero_iff] at none ⊢
  exact none.2

namespace CBlockIndex

/-- An entry without what changes after it has entered the tree, but for its failure flags. -/
def verdict (index : CBlockIndex) : CBlockIndex :=
  { index with nStatus := index.nStatus &&& BLOCK_FAILED_MASK, nUndoPos := 0, pnext := none }

theorem verdict_shape (index : CBlockIndex) : index.verdict.shape = index.shape := rfl

theorem verdict_failed (index : CBlockIndex) :
    index.verdict.nStatus &&& BLOCK_FAILED_MASK = index.nStatus &&& BLOCK_FAILED_MASK := by
  rw [verdict, UInt32.and_assoc, UInt32.and_self]

theorem verdict_undo (index : CBlockIndex) (nUndoPos : UInt32) :
    verdict { index with nUndoPos, nStatus := index.nStatus ||| BLOCK_HAVE_UNDO } = index.verdict := by
  have status : (index.nStatus ||| BLOCK_HAVE_UNDO) &&& BLOCK_FAILED_MASK = index.nStatus &&& BLOCK_FAILED_MASK :=
    and_or_of_disjoint (by decide)
  simp only [verdict, status]

theorem verdict_valid (index : CBlockIndex) :
    verdict { index with nStatus := (index.nStatus &&& ~~~BLOCK_VALID_MASK) ||| BLOCK_VALID_SCRIPTS } =
      index.verdict := by
  have masks : ~~~BLOCK_VALID_MASK &&& BLOCK_FAILED_MASK = BLOCK_FAILED_MASK := by decide
  have status : ((index.nStatus &&& ~~~BLOCK_VALID_MASK) ||| BLOCK_VALID_SCRIPTS) &&& BLOCK_FAILED_MASK =
      index.nStatus &&& BLOCK_FAILED_MASK := by
    rw [and_or_of_disjoint (by decide), UInt32.and_assoc, masks]
  simp only [verdict, status]

end CBlockIndex

namespace BlockMap

/-- The same entries, but for undo data, successors and how far they have been checked. -/
abbrev SameVerdicts : BlockMap → BlockMap → Prop := Same CBlockIndex.verdict

def Failed (map : BlockMap) (hash : UInt256) : Prop :=
  ∃ index, map hash = some index ∧ index.nStatus &&& BLOCK_FAILED_MASK ≠ 0

def Doomed (map : BlockMap) (hash : UInt256) : Prop :=
  ∃ ancestor, Ancestor map.parent ancestor hash ∧ map.Failed ancestor

variable {map other : BlockMap} {view : CBlockIndex → CBlockIndex}

theorem SameVerdicts.shape (same : SameVerdicts map other) : SameShape map other :=
  same.field CBlockIndex.shape CBlockIndex.verdict_shape

theorem SameVerdicts.failed_iff (same : SameVerdicts map other) (hash : UInt256) :
    other.Failed hash ↔ map.Failed hash := by
  have both := same.field (fun index => index.nStatus &&& BLOCK_FAILED_MASK) CBlockIndex.verdict_failed hash
  constructor
  · rintro ⟨index, known, failed⟩
    obtain ⟨before, found, _⟩ := same.entry known
    rw [known, found, Option.map_some, Option.map_some, Option.some.injEq] at both
    exact ⟨before, found, both ▸ failed⟩
  · rintro ⟨index, known, failed⟩
    obtain ⟨after, found, _⟩ := same.symm.entry known
    rw [known, found, Option.map_some, Option.map_some, Option.some.injEq] at both
    exact ⟨after, found, both ▸ failed⟩

theorem foldl_setNext_same (keeps : ∀ index pnext, view { index with pnext } = view index)
    (above pnext : UInt256 → Option UInt256) (hashes : List UInt256) :
    Same view map (hashes.foldl (fun links head => links.setNext (above head) (pnext head)) map) := by
  induction hashes generalizing map with
  | nil => exact .refl map
  | cons head rest ih =>
      have first : Same view map (map.setNext (above head) (pnext head)) := by
        unfold setNext
        split
        · exact .update _ fun _ => keeps _ _
        · exact .refl map
      exact first.trans ih

theorem relink_same (keeps : ∀ index pnext, view { index with pnext } = view index) (switch : Switch) :
    Same view map (relink map switch) := by
  rw [relink_eq]
  exact (foldl_setNext_same keeps _ _ _).trans (foldl_setNext_same keeps _ _ _)

end BlockMap

/-! ## What connecting blocks leaves of an entry -/

section

variable {view : CBlockIndex → CBlockIndex} {env : Surroundings} {hash : UInt256}

theorem andThen_sameMap {w : Winding} {step : Step Winding} {next : Winding → Step Winding}
    (first : Same view w.mapBlockIndex step.state.mapBlockIndex)
    (second : ∀ state : Winding, Same view state.mapBlockIndex (next state).state.mapBlockIndex) :
    Same view w.mapBlockIndex (step.andThen next).state.mapBlockIndex := by
  unfold Step.andThen
  split
  · exact first
  · exact first.trans (second _)

/-- ConnectBlock records the place of the undo data and how far the block has been checked. -/
structure KeptByConnecting (view : CBlockIndex → CBlockIndex) : Prop where
  undo : ∀ index nUndoPos, view { index with nUndoPos, nStatus := index.nStatus ||| BLOCK_HAVE_UNDO } = view index
  valid : ∀ index, view { index with
    nStatus := (index.nStatus &&& ~~~BLOCK_VALID_MASK) ||| BLOCK_VALID_SCRIPTS } = view index

theorem KeptByConnecting.verdict : KeptByConnecting CBlockIndex.verdict :=
  ⟨CBlockIndex.verdict_undo, CBlockIndex.verdict_valid⟩

theorem writeConnected_same [Hashing] [PubKeys] (kept : KeptByConnecting view) (pindex : CBlockIndex) (blockundo : CBlockUndo)
    (w : Winding) : Same view w.mapBlockIndex (writeConnected env hash pindex blockundo w).state.mapBlockIndex := by
  apply andThen_sameMap
  · split
    · apply andThen_sameMap
      · unfold writeUndo
        split
        · exact .refl _
        · split
          · exact .refl _
          · exact .refl _
          · split
            · exact .update hash fun index => kept.undo index _
            · exact .refl _
      · intro state
        exact .update hash kept.valid
    · exact .refl _
  · intro state
    split <;> exact .refl _

variable [Hashing] [PubKeys] [ScriptMachine] {blockFiles : CDiskBlockPos → Option CBlock}

theorem connectTip_same (kept : KeptByConnecting view) (w : Winding) :
    Same view w.mapBlockIndex (connectTip env blockFiles hash w).state.mapBlockIndex := by
  unfold connectTip
  split
  · exact .refl _
  · split
    · exact .refl _
    · split
      · exact .refl _
      · apply andThen_sameMap
        · split
          · exact .refl _
          · exact writeConnected_same kept _ _ w
        · intro state
          exact .refl _

theorem connectTips_same (kept : KeptByConnecting view) (hashes : List UInt256) (w : Winding) :
    Same view w.mapBlockIndex (connectTips env blockFiles hashes w).1.mapBlockIndex := by
  induction hashes generalizing w with
  | nil => exact .refl _
  | cons hash rest ih =>
      rw [connectTips]
      split
      · exact connectTip_same kept w
      · exact (connectTip_same kept w).trans (ih _)

end

theorem Plans.not_active {map : BlockMap} (tree : map.Tree) {tip : Option UInt256} {pindexNew hash best : UInt256}
    {switch : Switch} {pfork : Option UInt256} (plans : Plans map tip pindexNew switch pfork)
    (member : hash ∈ switch.vConnect) (known : tip = some best) : ¬Ancestor map.parent hash best := by
  intro active
  obtain ⟨fork, rfl, highest⟩ := plans.fork best known
  have member' : hash ∈ switch.vConnect.reverse := List.mem_reverse.mpr member
  have common := highest hash active (plans.connect.ancestor rfl hash member')
  have low := common.height_le tree.graded
  have high := plans.connect.stop_lower tree hash member'
  omega

theorem Outcome.andThen_state (outcome : Outcome) (next : ChainState → Outcome) :
    (outcome.andThen next).state = outcome.state ∨ (outcome.andThen next).state = (next outcome.state).state := by
  unfold Outcome.andThen
  split
  · exact Or.inl rfl
  · exact Or.inr rfl

namespace ChainState

/-! ## Marking blocks -/

/-- The blocks have been marked as failed and are no candidates any longer. -/
structure Marks (s after : ChainState) (hashes : List UInt256) : Prop where
  memory : SameMemory s after
  work : after.nBestChainWork = s.nBestChainWork
  shape : SameShape s.mapBlockIndex after.mapBlockIndex
  failed : ∀ hash, after.mapBlockIndex.Failed hash ↔ s.mapBlockIndex.Failed hash ∨ hash ∈ hashes
  valid : after.setBlockIndexValid = s.setBlockIndexValid.filter (· ∉ hashes)

variable {s between after : ChainState} {hash : UInt256} {hashes more : List UInt256}

theorem Marks.of_verdicts (memory : SameMemory s after) (work : after.nBestChainWork = s.nBestChainWork)
    (verdicts : SameVerdicts s.mapBlockIndex after.mapBlockIndex)
    (valid : after.setBlockIndexValid = s.setBlockIndexValid) : Marks s after [] := by
  refine ⟨memory, work, verdicts.shape, fun hash => ?_, ?_⟩
  · rw [verdicts.failed_iff]
    simp
  · simp [valid]

theorem Marks.refl (s : ChainState) : Marks s s [] :=
  .of_verdicts (.refl s) rfl (.refl _) rfl

theorem Marks.trans (first : Marks s between hashes) (second : Marks between after more) :
    Marks s after (hashes ++ more) := by
  refine ⟨first.memory.trans second.memory, second.work.trans first.work, first.shape.trans second.shape, ?_, ?_⟩
  · intro hash
    rw [second.failed, first.failed, List.mem_append, or_assoc]
  · rw [second.valid, first.valid, List.filter_filter]
    refine List.filter_congr fun hash _ => ?_
    simp [not_or, Bool.and_comm]

theorem Marks.mem_valid (marks : Marks s after hashes) :
    hash ∈ after.setBlockIndexValid ↔ hash ∈ s.setBlockIndexValid ∧ hash ∉ hashes := by
  rw [marks.valid, List.mem_filter, decide_eq_true_eq]

theorem Marks.flag {index : CBlockIndex} (known : s.mapBlockIndex hash = some index) {flag : UInt32}
    (fails : flag &&& BLOCK_FAILED_MASK ≠ 0) :
    Marks s ((s.setIndex hash fun index => { index with nStatus := index.nStatus ||| flag }).eraseValid hash) [hash] := by
  refine ⟨.of_tree rfl rfl rfl rfl rfl (.update hash fun _ => rfl), rfl, .update hash fun _ => rfl, ?_, ?_⟩
  · intro other
    rw [List.mem_singleton]
    by_cases same : other = hash
    · subst same
      refine iff_of_true ⟨_, (update_same other _).trans (congrArg _ known), ?_⟩ (Or.inr rfl)
      exact and_or_ne_zero fails
    · unfold Failed
      dsimp only [eraseValid, setIndex]
      rw [update_other same, or_iff_left same]
  · dsimp only [eraseValid, setIndex]
    simp

theorem markInvalid_marks {index : CBlockIndex} (known : s.mapBlockIndex hash = some index) :
    Marks s (s.markInvalid hash) [hash] :=
  .flag known (by decide)

theorem markFailedChild_marks {index : CBlockIndex} (known : s.mapBlockIndex hash = some index) :
    Marks s (s.markFailedChild hash) [hash] :=
  .flag known (by decide)

theorem markFailedChildren_marks (known : ∀ hash ∈ hashes, ∃ index, s.mapBlockIndex hash = some index) :
    Marks s (hashes.foldl markFailedChild s) hashes := by
  induction hashes generalizing s with
  | nil => exact .refl s
  | cons hash rest ih =>
      obtain ⟨index, found⟩ := known hash List.mem_cons_self
      have first := markFailedChild_marks found
      refine first.trans (ih fun other member => ?_)
      obtain ⟨before, present⟩ := known other (List.mem_cons_of_mem hash member)
      obtain ⟨kept, same, _⟩ := first.shape.symm.entry present
      exact ⟨kept, same⟩

theorem invalidChainFound_marks (s : ChainState) (pindexNew : UInt256) :
    Marks s (s.invalidChainFound pindexNew).state [] := by
  unfold invalidChainFound
  split
  · exact .of_verdicts (.of_tree rfl rfl rfl rfl rfl (.refl _)) rfl (.refl _) rfl
  · exact .refl s

theorem invalidBlockFound_marks (reorganise : ChainState → Outcome) {index : CBlockIndex}
    (known : s.mapBlockIndex hash = some index) (leaf : index.pnext = none) :
    Marks s (s.invalidBlockFound reorganise hash).state [hash] := by
  have marks := (markInvalid_marks known).trans (invalidChainFound_marks (s.markInvalid hash) hash)
  have next := marks.memory.pnext hash
  rw [known, Option.bind_some, leaf] at next
  unfold invalidBlockFound
  rcases Outcome.andThen_state ((s.markInvalid hash).invalidChainFound hash) _ with same | same
  · rw [same]
    exact marks
  · rw [same]
    simp only [next, Option.isSome_none, Bool.false_eq_true, if_false]
    exact marks

theorem connectFailed_marks (reorganise : ChainState → Outcome) (pindexNew : UInt256) (reason : Failure)
    {index : CBlockIndex} (known : s.mapBlockIndex hash = some index) (leaf : index.pnext = none) :
    ∃ marked, Marks s (s.connectFailed reorganise pindexNew hash reason).state marked ∧
      ∀ other ∈ marked, other = hash := by
  have first := invalidChainFound_marks s pindexNew
  obtain ⟨kept, present, equal⟩ := first.shape.symm.entry known
  have next := first.memory.pnext hash
  rw [known, present, Option.bind_some, Option.bind_some, leaf] at next
  have both := first.trans (invalidBlockFound_marks reorganise present next)
  unfold connectFailed
  split
  · rcases Outcome.andThen_state ((s.invalidChainFound pindexNew).andThen fun s => s.invalidBlockFound reorganise hash)
      (fun s => ⟨s, .error reason⟩) with same | same
    all_goals
      rw [same]
      rcases Outcome.andThen_state (s.invalidChainFound pindexNew) (fun s => s.invalidBlockFound reorganise hash)
        with inner | inner
      · rw [inner]
        exact ⟨[], first, by simp⟩
      · rw [inner]
        exact ⟨[hash], both, by simp⟩
  · exact ⟨[], .refl s, by simp⟩

end ChainState

end BitCrystal
