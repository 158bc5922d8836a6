import BitCrystal.ProcessBlock

namespace BitCrystal

open Data

/-! # The stored orphan blocks -/

section

variable [Hashing]

/-- mapOrphanBlocks and mapOrphanBlocksByPrev hold the same blocks, each once. -/
structure BlockNode.OrphansListed (s : BlockNode) : Prop where
  own : ∀ (hash : UInt256) (block : CBlock), s.mapOrphanBlocks[hash]? = some block → block.getHash = hash
  listed : ∀ prev block, (prev, block) ∈ s.mapOrphanBlocksByPrev ↔
    s.mapOrphanBlocks[block.getHash]? = some block ∧ block.hashPrevBlock = prev
  once : s.mapOrphanBlocksByPrev.Nodup

def BlockNode.ParentsMissing (s : BlockNode) : Prop :=
  ∀ (hash : UInt256) (block : CBlock), s.mapOrphanBlocks[hash]? = some block → s.chain.mapBlockIndex block.hashPrevBlock = none

def BlockNode.Unawaited (s : BlockNode) (parent : UInt256) : Prop :=
  ∀ (hash : UInt256) (block : CBlock), s.mapOrphanBlocks[hash]? = some block → block.hashPrevBlock ≠ parent

end

section

variable [Hashing] [PubKeys] [ScriptMachine] {answers : Nat → AcceptAnswers}

/-! ## The condition -/

/-- When AcceptBlock has entered a block in the tree, the rest of AddToBlockIndex succeeds,
or no stored orphan waits for the block. -/
def BlockNode.Clean (answers : AcceptAnswers) (s : BlockNode) (block : CBlock) (dbp : Option CDiskBlockPos) : Prop :=
  ∀ stored pos, s.storeBlock answers block dbp = (stored, .ok pos) →
    ((stored.chain.enter block pos).connectEntered answers).result = .ok () ∨ s.Unawaited block.getHash

def CleanWaiting (answers : Nat → AcceptAnswers) : List CBlock → BlockWork → Prop
  | [], _ => True
  | pblockOrphan :: waiting, r => r.node.Clean (answers r.calls) pblockOrphan none ∧
      ((resolveBlock answers r pblockOrphan).failure = none →
        CleanWaiting answers waiting (resolveBlock answers r pblockOrphan).state)

/-- The condition at every turn of the loop over the work queue. -/
def CleanBlocks (answers : Nat → AcceptAnswers) : Nat → BlockWork → Prop
  | 0, _ => True
  | room + 1, r =>
      match r.vWorkQueue with
      | [] => True
      | hashPrev :: vWorkQueue =>
          CleanWaiting answers (r.node.waitingFor hashPrev) { r with vWorkQueue } ∧
          let step := resolveWaiting answers (r.node.waitingFor hashPrev) { r with vWorkQueue }
          (step.failure = none → CleanBlocks answers room { step.state with node := { step.state.node with
            mapOrphanBlocksByPrev := step.state.node.mapOrphanBlocksByPrev.filter fun entry => entry.1 ≠ hashPrev } })

/-- The condition at every call of AcceptBlock in ProcessBlock. -/
def BlockNode.ProcessesCleanly (answers : Nat → AcceptAnswers) (fCheckpoints : Bool) (s : BlockNode) (block : CBlock)
    (dbp : Option CDiskBlockPos) : Prop :=
  s.processBlockChecks (answers 0).settings fCheckpoints block = .ok () → s.isOrphan block = false →
    s.Clean (answers 0) block dbp ∧
    let accepted := s.acceptBlock (answers 0) block dbp
    (accepted.2 = .ok () → CleanBlocks answers (accepted.1.mapOrphanBlocksByPrev.length + 2)
      ⟨accepted.1, [block.getHash], 1⟩)

/-! ## AcceptBlock -/

/-- The tree and the orphans stay the same, but for one block that may have entered the tree. -/
structure BlockNode.Entered (s after : BlockNode) (hash : UInt256) : Prop where
  orphans : after.mapOrphanBlocks = s.mapOrphanBlocks
  byPrev : after.mapOrphanBlocksByPrev = s.mapOrphanBlocksByPrev
  known : ∀ other, s.chain.mapBlockIndex other = none → other ≠ hash → after.chain.mapBlockIndex other = none

namespace BlockNode

variable {s : BlockNode} {block : CBlock} {dbp : Option CDiskBlockPos}

omit [PubKeys] [ScriptMachine] in
theorem storeBlock_same (answers : AcceptAnswers) (s : BlockNode) (block : CBlock) (dbp : Option CDiskBlockPos) :
    (s.storeBlock answers block dbp).1.mapOrphanBlocks = s.mapOrphanBlocks ∧
      (s.storeBlock answers block dbp).1.mapOrphanBlocksByPrev = s.mapOrphanBlocksByPrev ∧
      (s.storeBlock answers block dbp).1.chain.mapBlockIndex = s.chain.mapBlockIndex := by
  unfold storeBlock
  split
  · exact ⟨rfl, rfl, rfl⟩
  · dsimp only
    split
    · exact ⟨rfl, rfl, rfl⟩
    · exact ⟨rfl, rfl, rfl⟩
    · split
      · exact ⟨rfl, rfl, rfl⟩
      · exact ⟨rfl, rfl, rfl⟩

theorem connectEntered_shape (answers : AcceptAnswers) :
    ChainState.KeepsShape (ChainState.connectEntered answers) := by
  intro s
  unfold ChainState.connectEntered
  split
  · exact .refl _
  · refine ChainState.andThen_shape (ChainState.connectBestBlock_shape _ _ s) ?_
    split
    · exact .refl _
    · exact .refl _

theorem addToBlockIndex_none (answers : AcceptAnswers) (chain : ChainState) (block : CBlock) (pos : CDiskBlockPos)
    {other : UInt256} (missing : chain.mapBlockIndex other = none) (different : other ≠ block.getHash) :
    (chain.addToBlockIndex answers block pos).state.mapBlockIndex other = none := by
  unfold ChainState.addToBlockIndex
  split
  · exact missing
  · refine (connectEntered_shape answers _).none ?_
    simp only [ChainState.enter, if_neg different]
    exact missing

theorem acceptBlock_entered (answers : AcceptAnswers) (s : BlockNode) (block : CBlock) (dbp : Option CDiskBlockPos) :
    s.Entered (s.acceptBlock answers block dbp).1 block.getHash := by
  obtain ⟨orphans, byPrev, tree⟩ := storeBlock_same answers s block dbp
  unfold acceptBlock
  cases stored : s.storeBlock answers block dbp with
  | mk after found =>
      rw [stored] at orphans byPrev tree
      cases found with
      | error reason => exact ⟨orphans, byPrev, fun other missing _ => tree ▸ missing⟩
      | ok pos =>
          refine ⟨orphans, byPrev, fun other missing different => ?_⟩
          dsimp only
          rw [Outcome.caught_state]
          exact addToBlockIndex_none answers after.chain block pos (tree ▸ missing) different

/-- Under the condition AcceptBlock succeeds, or nothing waits for its block, or the tree
has the entries it had. -/
theorem acceptBlock_clean {answers : AcceptAnswers} (clean : s.Clean answers block dbp) :
    (s.acceptBlock answers block dbp).2 = .ok () ∨ s.Unawaited block.getHash ∨
      ∀ other, s.chain.mapBlockIndex other = none →
        (s.acceptBlock answers block dbp).1.chain.mapBlockIndex other = none := by
  have tree := (storeBlock_same answers s block dbp).2.2
  unfold acceptBlock
  cases stored : s.storeBlock answers block dbp with
  | mk after found =>
      rw [stored] at tree
      cases found with
      | error reason => exact Or.inr (Or.inr fun other missing => tree ▸ missing)
      | ok pos =>
          dsimp only
          rw [Outcome.caught_state]
          unfold ChainState.addToBlockIndex
          split
          · exact Or.inr (Or.inr fun other missing => tree ▸ missing)
          · rcases clean after pos stored with succeeds | unawaited
            · refine Or.inl ?_
              unfold Outcome.caught
              rw [succeeds]
              exact succeeds
            · exact Or.inr (Or.inl unawaited)

end BlockNode

/-! ## The inner loop -/

/-- In the loop over the orphans that wait for `hashPrev`: those in `waiting` are left, and
every other orphan with a parent in the tree waits for a block in the queue. -/
structure BlockWork.Resolving (hashPrev : UInt256) (waiting : List CBlock) (r : BlockWork) : Prop where
  own : ∀ (hash : UInt256) (block : CBlock), r.node.mapOrphanBlocks[hash]? = some block → block.getHash = hash
  left : ∀ block : CBlock, block ∈ waiting ↔
    r.node.mapOrphanBlocks[block.getHash]? = some block ∧ block.hashPrevBlock = hashPrev
  listed : ∀ prev (block : CBlock), prev ≠ hashPrev → ((prev, block) ∈ r.node.mapOrphanBlocksByPrev ↔
    r.node.mapOrphanBlocks[block.getHash]? = some block ∧ block.hashPrevBlock = prev)
  once : r.node.mapOrphanBlocksByPrev.Nodup
  leftOnce : waiting.Nodup
  queued : ∀ (hash : UInt256) (block : CBlock), r.node.mapOrphanBlocks[hash]? = some block →
    r.node.chain.mapBlockIndex block.hashPrevBlock ≠ none →
      block.hashPrevBlock ∈ r.vWorkQueue ∨ block.hashPrevBlock = hashPrev

variable {r : BlockWork} {hashPrev : UInt256} {waiting : List CBlock} {pblockOrphan : CBlock}

theorem resolveBlock_ok (returned : (resolveBlock answers r pblockOrphan).failure = none) :
    ∃ vWorkQueue, (resolveBlock answers r pblockOrphan).state =
        ⟨{ (r.node.acceptBlock (answers r.calls) pblockOrphan none).1 with
            mapOrphanBlocks := (r.node.acceptBlock (answers r.calls) pblockOrphan none).1.mapOrphanBlocks.erase
              pblockOrphan.getHash }, vWorkQueue, r.calls + 1⟩ ∧
      (vWorkQueue = r.vWorkQueue ∧ (r.node.acceptBlock (answers r.calls) pblockOrphan none).2 ≠ .ok () ∨
        vWorkQueue = r.vWorkQueue ++ [pblockOrphan.getHash]) := by
  unfold resolveBlock at returned ⊢
  cases accepted : r.node.acceptBlock (answers r.calls) pblockOrphan none with
  | mk node result =>
      rw [accepted] at returned
      cases result with
      | ok done => exact ⟨_, rfl, Or.inr rfl⟩
      | error reason =>
          dsimp only at returned ⊢
          split at returned
          · rename_i returns
            rw [if_pos returns]
            exact ⟨_, rfl, Or.inl ⟨rfl, by simp⟩⟩
          · contradiction

theorem BlockWork.Resolving.resolveBlock (resolving : BlockWork.Resolving hashPrev (pblockOrphan :: waiting) r)
    (clean : r.node.Clean (answers r.calls) pblockOrphan none)
    (returned : (BitCrystal.resolveBlock answers r pblockOrphan).failure = none) :
    BlockWork.Resolving hashPrev waiting (BitCrystal.resolveBlock answers r pblockOrphan).state := by
  obtain ⟨vWorkQueue, state, pushed⟩ := resolveBlock_ok returned
  have entered := BlockNode.acceptBlock_entered (answers r.calls) r.node pblockOrphan none
  have verdict := BlockNode.acceptBlock_clean clean
  rw [state]
  generalize r.node.acceptBlock (answers r.calls) pblockOrphan none = accepted at *
  obtain ⟨⟨stored, parent⟩, notLeft⟩ := And.intro ((resolving.left pblockOrphan).mp List.mem_cons_self)
    (List.nodup_cons.mp resolving.leftOnce).1
  -- the orphans that are left are those stored under another hash
  have kept (hash : UInt256) (block : CBlock) : (accepted.1.mapOrphanBlocks.erase pblockOrphan.getHash)[hash]? =
      some block ↔ hash ≠ pblockOrphan.getHash ∧ r.node.mapOrphanBlocks[hash]? = some block := by
    rw [entered.orphans, Std.ExtTreeMap.getElem?_erase]
    simp only [Std.compare_eq_iff_eq]
    split
    · rename_i same
      simp [same]
    · rename_i different
      exact ⟨fun found => ⟨fun same => different same.symm, found⟩, fun both => both.2⟩
  have other {block : CBlock} (found : r.node.mapOrphanBlocks[block.getHash]? = some block)
      (same : block.getHash = pblockOrphan.getHash) : block = pblockOrphan := by
    rw [same, stored] at found
    exact (Option.some.inj found).symm
  constructor
  · intro hash block found
    exact resolving.own hash block ((kept hash block).mp found).2
  · intro block
    rw [kept]
    constructor
    · intro member
      obtain ⟨found, prev⟩ := (resolving.left block).mp (List.mem_cons_of_mem _ member)
      refine ⟨⟨fun same => ?_, found⟩, prev⟩
      rw [other found same] at member
      exact notLeft member
    · rintro ⟨⟨different, found⟩, prev⟩
      rcases List.mem_cons.mp ((resolving.left block).mpr ⟨found, prev⟩) with rfl | member
      · exact absurd rfl different
      · exact member
  · intro prev block away
    rw [kept, entered.byPrev, resolving.listed prev block away]
    constructor
    · rintro ⟨found, prevEq⟩
      refine ⟨⟨fun same => ?_, found⟩, prevEq⟩
      rw [other found same, parent] at prevEq
      exact away prevEq.symm
    · rintro ⟨⟨_, found⟩, prevEq⟩
      exact ⟨found, prevEq⟩
  · rw [entered.byPrev]
    exact resolving.once
  · exact (List.nodup_cons.mp resolving.leftOnce).2
  · intro hash block found known
    obtain ⟨_, found⟩ := (kept hash block).mp found
    have pushes {parent : UInt256} (queued : parent ∈ r.vWorkQueue) : parent ∈ vWorkQueue := by
      rcases pushed with ⟨same, _⟩ | same
      · exact same ▸ queued
      · exact same ▸ List.mem_append_left _ queued
    by_cases before : r.node.chain.mapBlockIndex block.hashPrevBlock = none
    · -- the parent has just entered the tree
      have newly : block.hashPrevBlock = pblockOrphan.getHash := by
        by_contra different
        exact known (entered.known _ before different)
      rcases pushed with ⟨_, failed⟩ | same
      · rcases verdict with succeeds | unawaited | unchanged
        · exact absurd succeeds failed
        · exact absurd newly (unawaited hash block found)
        · exact absurd (unchanged _ before) known
      · exact Or.inl (by rw [same, newly]; exact List.mem_append_right _ List.mem_cons_self)
    · exact (resolving.queued hash block found before).imp_left pushes

theorem BlockWork.Resolving.resolveWaiting (resolving : BlockWork.Resolving hashPrev waiting r)
    (clean : CleanWaiting answers waiting r)
    (returned : (BitCrystal.resolveWaiting answers waiting r).failure = none) :
    BlockWork.Resolving hashPrev [] (BitCrystal.resolveWaiting answers waiting r).state := by
  induction waiting generalizing r with
  | nil => exact resolving
  | cons pblockOrphan waiting ih =>
      obtain ⟨own, rest⟩ := clean
      obtain ⟨first, next⟩ := Step.andThen_failure_none returned
      rw [BitCrystal.resolveWaiting, next] at returned ⊢
      exact ih (resolving.resolveBlock own first) (rest first) returned

/-! ## The loop over the work queue -/

/-- Every stored orphan with a parent in the tree waits for a block in the queue. -/
structure BlockWork.Queued (r : BlockWork) : Prop where
  orphans : r.node.OrphansListed
  queued : ∀ (hash : UInt256) (block : CBlock), r.node.mapOrphanBlocks[hash]? = some block →
    r.node.chain.mapBlockIndex block.hashPrevBlock ≠ none → block.hashPrevBlock ∈ r.vWorkQueue

omit [Hashing] [PubKeys] [ScriptMachine] in
theorem mem_waitingFor {s : BlockNode} {block : CBlock} :
    block ∈ s.waitingFor hashPrev ↔ (hashPrev, block) ∈ s.mapOrphanBlocksByPrev := by
  simp only [BlockNode.waitingFor, List.mem_map, List.mem_filter, decide_eq_true_eq]
  constructor
  · rintro ⟨entry, ⟨member, rfl⟩, rfl⟩
    exact member
  · intro member
    exact ⟨_, ⟨member, rfl⟩, rfl⟩

omit [PubKeys] [ScriptMachine] in
theorem BlockNode.OrphansListed.waitingFor_nodup {s : BlockNode} (orphans : s.OrphansListed) :
    (s.waitingFor hashPrev).Nodup := by
  refine List.Nodup.map_on (fun first member second also equal => ?_) (orphans.once.filter _)
  have one := of_decide_eq_true (List.mem_filter.mp member).2
  have two := of_decide_eq_true (List.mem_filter.mp also).2
  exact Prod.ext (one.trans two.symm) equal

omit [PubKeys] [ScriptMachine] in
theorem BlockWork.Queued.enter {vWorkQueue : List UInt256} (queued : r.Queued)
    (next : r.vWorkQueue = hashPrev :: vWorkQueue) :
    BlockWork.Resolving hashPrev (r.node.waitingFor hashPrev) { r with vWorkQueue } := by
  refine ⟨queued.orphans.own, fun block => ?_, fun prev block _ => queued.orphans.listed prev block,
    queued.orphans.once, queued.orphans.waitingFor_nodup, fun hash block found known => ?_⟩
  · rw [mem_waitingFor, queued.orphans.listed]
  · have member := queued.queued hash block found known
    rw [next] at member
    exact (List.mem_cons.mp member).symm

omit [PubKeys] [ScriptMachine] in
theorem BlockWork.Resolving.leave (resolving : BlockWork.Resolving hashPrev [] r) :
    BlockWork.Queued { r with node := { r.node with
      mapOrphanBlocksByPrev := r.node.mapOrphanBlocksByPrev.filter fun entry => entry.1 ≠ hashPrev } } := by
  -- nothing that waits for `hashPrev` is stored any more
  have gone {hash : UInt256} {block : CBlock} (found : r.node.mapOrphanBlocks[hash]? = some block) :
      block.hashPrevBlock ≠ hashPrev := by
    intro same
    have own := resolving.own hash block found
    exact absurd ((resolving.left block).mpr ⟨own ▸ found, same⟩) List.not_mem_nil
  refine ⟨⟨resolving.own, fun prev block => ?_, resolving.once.filter _⟩, fun hash block found known => ?_⟩
  · rw [List.mem_filter, decide_eq_true_eq]
    by_cases same : prev = hashPrev
    · refine iff_of_false (fun both => both.2 same) fun both => gone both.1 (both.2.trans same)
    · rw [resolving.listed prev block same]
      exact ⟨fun both => both.1, fun both => ⟨both, same⟩⟩
  · exact (resolving.queued hash block found known).resolve_right (gone found)

theorem BlockWork.Queued.resolveBlocks {room : Nat} (queued : r.Queued) (clean : CleanBlocks answers room r)
    (returned : (BitCrystal.resolveBlocks answers room r).failure = none) :
    (BitCrystal.resolveBlocks answers room r).state.node.OrphansListed ∧
      (BitCrystal.resolveBlocks answers room r).state.node.ParentsMissing := by
  induction room generalizing r with
  | zero => contradiction
  | succ room ih =>
      unfold BitCrystal.resolveBlocks at returned ⊢
      unfold CleanBlocks at clean
      cases next : r.vWorkQueue with
      | nil =>
          refine ⟨queued.orphans, fun hash block found => ?_⟩
          by_contra known
          have member := queued.queued hash block found known
          rw [next] at member
          exact absurd member List.not_mem_nil
      | cons hashPrev vWorkQueue =>
          simp only [next] at returned clean ⊢
          obtain ⟨inner, outer⟩ := clean
          obtain ⟨first, last⟩ := Step.andThen_failure_none returned
          rw [last] at returned ⊢
          exact ih ((queued.enter next).resolveWaiting inner first).leave (outer first) returned

/-! ## How long the loop runs -/

theorem resolveBlock_queue (returned : (resolveBlock answers r pblockOrphan).failure = none) :
    (resolveBlock answers r pblockOrphan).state.node.mapOrphanBlocksByPrev = r.node.mapOrphanBlocksByPrev ∧
      (resolveBlock answers r pblockOrphan).state.vWorkQueue.length ≤ r.vWorkQueue.length + 1 := by
  obtain ⟨vWorkQueue, state, pushed⟩ := resolveBlock_ok returned
  rw [state]
  refine ⟨(BlockNode.acceptBlock_entered _ r.node pblockOrphan none).byPrev, ?_⟩
  rcases pushed with ⟨rfl, _⟩ | rfl
  · exact Nat.le_succ _
  · simp

theorem resolveWaiting_queue (returned : (resolveWaiting answers waiting r).failure = none) :
    (resolveWaiting answers waiting r).state.node.mapOrphanBlocksByPrev = r.node.mapOrphanBlocksByPrev ∧
      (resolveWaiting answers waiting r).state.vWorkQueue.length ≤ r.vWorkQueue.length + waiting.length := by
  induction waiting generalizing r with
  | nil => exact ⟨rfl, Nat.le_refl _⟩
  | cons pblockOrphan waiting ih =>
      obtain ⟨first, next⟩ := Step.andThen_failure_none returned
      rw [resolveWaiting, next] at returned ⊢
      obtain ⟨byPrev, fewer⟩ := resolveBlock_queue first
      obtain ⟨same, last⟩ := ih returned
      refine ⟨same.trans byPrev, ?_⟩
      rw [List.length_cons]
      omega

/-- Every turn takes one block from the queue, and for each that it adds it drops an orphan:
with a turn for each of both, more turns make no difference. -/
theorem resolveBlocks_enough {room : Nat} (more : Nat)
    (enough : r.node.mapOrphanBlocksByPrev.length + r.vWorkQueue.length < room) :
    resolveBlocks answers (room + more) r = resolveBlocks answers room r := by
  induction room generalizing r with
  | zero => omega
  | succ room ih =>
      rw [Nat.add_right_comm]
      unfold resolveBlocks
      cases next : r.vWorkQueue with
      | nil => rfl
      | cons hashPrev vWorkQueue =>
          dsimp only
          cases stop : (resolveWaiting answers (r.node.waitingFor hashPrev) { r with vWorkQueue }).failure with
          | some reason => simp only [Step.andThen, stop]
          | none =>
              obtain ⟨byPrev, fewer⟩ := resolveWaiting_queue stop
              dsimp only at fewer
              simp only [Step.andThen, stop]
              refine ih ?_
              have split := List.length_eq_countP_add_countP (fun entry : UInt256 × CBlock => entry.1 = hashPrev)
                (l := r.node.mapOrphanBlocksByPrev)
              have waits : (r.node.waitingFor hashPrev).length =
                  (r.node.mapOrphanBlocksByPrev.filter fun entry => entry.1 = hashPrev).length := List.length_map _
              simp only [List.countP_eq_length_filter] at split
              rw [next, List.length_cons] at enough
              rw [byPrev]
              simp only [ne_eq, decide_not, decide_eq_true_eq] at split ⊢
              omega

/-! ## Runs -/

/-- ProcessBlock comes back, with true or with false. -/
def Returns (result : Except Failure Unit) : Prop :=
  Sat result (fun _ => True) fun reason => reason.returnsFalse = true

instance decidableReturns : DecidablePred Returns :=
  fun result => decidableSat result

/-- The states that calls of ProcessBlock reach, each of which meets a condition, from a
node without orphans. -/
inductive BlockNode.Run (condition : (Nat → AcceptAnswers) → Bool → BlockNode → CBlock → Option CDiskBlockPos → Prop) :
    BlockNode → Prop
  | start (chain : ChainState) (files : BlockFiles) : BlockNode.Run condition ⟨chain, files, ∅, []⟩
  | call {s : BlockNode} (run : BlockNode.Run condition s) (answers : Nat → AcceptAnswers) (fCheckpoints pfrom : Bool)
      (block : CBlock) (dbp : Option CDiskBlockPos) (meets : condition answers fCheckpoints s block dbp)
      (returns : Returns (s.processBlock answers fCheckpoints pfrom block dbp).2) :
      BlockNode.Run condition (s.processBlock answers fCheckpoints pfrom block dbp).1

theorem resolveWaiting_failure {reason : Failure} (stopped : (resolveWaiting answers waiting r).failure = some reason) :
    reason.returnsFalse = false := by
  induction waiting generalizing r with
  | nil => contradiction
  | cons pblockOrphan waiting ih =>
      unfold resolveWaiting Step.andThen at stopped
      cases first : (resolveBlock answers r pblockOrphan).failure with
      | none =>
          simp only [first] at stopped
          exact ih stopped
      | some other =>
          simp only [first] at stopped
          cases stopped
          unfold resolveBlock at first
          dsimp only at first
          split at first
          · contradiction
          · split at first
            · contradiction
            · rename_i thrown
              cases first
              exact Bool.eq_false_iff.mpr thrown

theorem resolveBlocks_failure {room : Nat} {reason : Failure}
    (stopped : (resolveBlocks answers room r).failure = some reason) : reason.returnsFalse = false := by
  induction room generalizing r with
  | zero =>
      cases stopped
      rfl
  | succ room ih =>
      unfold resolveBlocks at stopped
      split at stopped
      · contradiction
      · rename_i hashPrev vWorkQueue next
        unfold Step.andThen at stopped
        cases first : (resolveWaiting answers (r.node.waitingFor hashPrev) { r with vWorkQueue }).failure with
        | none =>
            simp only [first] at stopped
            exact ih stopped
        | some other =>
            simp only [first] at stopped
            cases stopped
            exact resolveWaiting_failure first

namespace BlockNode

variable {s after : BlockNode} {block : CBlock} {dbp : Option CDiskBlockPos} {fCheckpoints pfrom : Bool}

omit [PubKeys] [ScriptMachine] in
theorem OrphansListed.entered {hash : UInt256} (orphans : s.OrphansListed) (entered : s.Entered after hash) :
    after.OrphansListed := by
  refine ⟨?_, ?_, ?_⟩
  · rw [entered.orphans]
    exact orphans.own
  · rw [entered.orphans, entered.byPrev]
    exact orphans.listed
  · rw [entered.byPrev]
    exact orphans.once

omit [PubKeys] [ScriptMachine] in
theorem OrphansListed.keepOrphan (orphans : s.OrphansListed) (absent : s.mapOrphanBlocks.contains block.getHash = false) :
    (s.keepOrphan block).OrphansListed := by
  have missing : s.mapOrphanBlocks[block.getHash]? = none :=
    Std.ExtTreeMap.getElem?_eq_none (by rw [← Std.ExtTreeMap.contains_iff_mem, absent]; simp)
  have kept (hash : UInt256) (other : CBlock) : (s.keepOrphan block).mapOrphanBlocks[hash]? = some other ↔
      (hash = block.getHash ∧ other = block) ∨ s.mapOrphanBlocks[hash]? = some other := by
    simp only [BlockNode.keepOrphan, Std.ExtTreeMap.getElem?_insertIfNew, Std.compare_eq_iff_eq]
    by_cases same : block.getHash = hash
    · subst same
      simp [← Std.ExtTreeMap.contains_iff_mem, absent, eq_comm]
    · have other : hash ≠ block.getHash := fun eq => same eq.symm
      simp [same, other]
  have unlisted : (block.hashPrevBlock, block) ∉ s.mapOrphanBlocksByPrev := by
    rw [orphans.listed, missing]
    simp
  refine ⟨fun hash other found => ?_, fun prev other => ?_, ?_⟩
  · rcases (kept hash other).mp found with ⟨rfl, rfl⟩ | before
    · rfl
    · exact orphans.own hash other before
  · rw [kept]
    simp only [BlockNode.keepOrphan, List.mem_append, List.mem_singleton, orphans.listed]
    constructor
    · rintro (⟨found, prevEq⟩ | new)
      · exact ⟨Or.inr found, prevEq⟩
      · cases new
        exact ⟨Or.inl ⟨rfl, rfl⟩, rfl⟩
    · rintro ⟨⟨_, rfl⟩ | found, rfl⟩
      · exact Or.inr rfl
      · exact Or.inl ⟨found, rfl⟩
  · exact orphans.once.append (List.nodup_singleton _) (by simpa using unlisted)

theorem processBlock_resolves (orphans : s.OrphansListed) (missing : s.ParentsMissing)
    (clean : s.ProcessesCleanly answers fCheckpoints block dbp)
    (returns : Returns (s.processBlock answers fCheckpoints pfrom block dbp).2) :
    (s.processBlock answers fCheckpoints pfrom block dbp).1.OrphansListed ∧
      (s.processBlock answers fCheckpoints pfrom block dbp).1.ParentsMissing := by
  unfold processBlock at returns ⊢
  unfold ProcessesCleanly at clean
  cases checked : s.processBlockChecks (answers 0).settings fCheckpoints block with
  | error reason => exact ⟨orphans, missing⟩
  | ok done =>
      simp only [checked] at returns ⊢
      have clean := clean checked
      cases orphan : s.isOrphan block with
      | true =>
        rw [if_pos rfl]
        cases pfrom with
        | false => exact ⟨orphans, missing⟩
        | true =>
            simp only [processBlockChecks, bind_eq_ok, require_eq_ok] at checked
            obtain ⟨_, _, _, absent, _⟩ := checked
            have absent : s.mapOrphanBlocks.contains block.getHash = false := by simpa using absent
            refine ⟨orphans.keepOrphan absent, fun hash other found => ?_⟩
            simp only [BlockNode.keepOrphan, if_true, Std.ExtTreeMap.getElem?_insertIfNew] at found
            split at found
            · cases found
              simp only [isOrphan, Bool.and_eq_true, Option.isNone_iff_eq_none] at orphan
              exact orphan.2
            · exact missing hash other found
      | false =>
        simp only [orphan, Bool.false_eq_true, if_false] at returns ⊢
        obtain ⟨own, queue⟩ := clean orphan
        have entered := acceptBlock_entered (answers 0) s block dbp
        have verdict := acceptBlock_clean own
        generalize s.acceptBlock (answers 0) block dbp = accepted at returns queue entered verdict ⊢
        obtain ⟨node, result⟩ := accepted
        cases result with
        | error reason =>
            refine ⟨orphans.entered entered, fun hash other found => ?_⟩
            change node.mapOrphanBlocks[hash]? = some other at found
            rw [entered.orphans] at found
            rcases verdict with succeeds | unawaited | unchanged
            · contradiction
            · exact entered.known _ (missing hash other found) (unawaited hash other found)
            · exact unchanged _ (missing hash other found)
        | ok done =>
            have queued : BlockWork.Queued ⟨node, [block.getHash], 1⟩ := by
              refine ⟨orphans.entered entered, fun hash other found known => ?_⟩
              change node.mapOrphanBlocks[hash]? = some other at found
              rw [entered.orphans] at found
              by_contra different
              exact known (entered.known _ (missing hash other found) fun same => different (by simp [same]))
            have clean := queue rfl
            dsimp only at returns clean ⊢
            cases stop : (resolveBlocks answers (node.mapOrphanBlocksByPrev.length + 2)
                ⟨node, [block.getHash], 1⟩).failure with
            | some reason =>
                simp only [stop] at returns
                exact absurd (resolveBlocks_failure stop) (by simpa [Returns, Sat] using returns)
            | none => exact queued.resolveBlocks clean stop

/-- As long as no block that an orphan waits for fails after it has entered the tree, the
two maps hold the same orphans, and none whose parent is in the tree. -/
theorem orphans_resolved (s : BlockNode) (run : Run ProcessesCleanly s) : s.OrphansListed ∧ s.ParentsMissing := by
  induction run with
  | start chain files =>
      refine ⟨⟨fun hash block found => ?_, fun prev block => ?_, List.nodup_nil⟩, fun hash block found => ?_⟩
      · simp at found
      · simp
      · simp at found
  | call _ answers fCheckpoints pfrom block dbp meets returns ih =>
      exact processBlock_resolves ih.1 ih.2 meets returns

end BlockNode

theorem BlockNode.Clean.of_accepted {answers : AcceptAnswers} {s : BlockNode} {block : CBlock}
    {dbp : Option CDiskBlockPos} (accepted : (s.acceptBlock answers block dbp).2.isOk = true) :
    s.Clean answers block dbp := by
  intro stored pos run
  refine Or.inl ?_
  unfold acceptBlock at accepted
  rw [run] at accepted
  dsimp only at accepted
  unfold ChainState.addToBlockIndex at accepted
  split at accepted
  · contradiction
  · cases result : ((stored.chain.enter block pos).connectEntered answers).result with
    | ok done => rfl
    | error reason =>
        unfold Outcome.caught at accepted
        cases reason <;> simp [result, Except.isOk, Except.toBool] at accepted

theorem CleanBlocks.nil {room : Nat} (next : r.vWorkQueue = []) : CleanBlocks answers (room + 1) r := by
  unfold CleanBlocks
  rw [next]
  trivial

theorem CleanBlocks.cons {room : Nat} (hashPrev : UInt256) (vWorkQueue : List UInt256) (waiting : List CBlock)
    (next : r.vWorkQueue = hashPrev :: vWorkQueue) (waits : r.node.waitingFor hashPrev = waiting) (inner : CleanWaiting answers waiting { r with vWorkQueue })
    (outer : CleanBlocks answers room { (resolveWaiting answers waiting { r with vWorkQueue }).state with
      node := { (resolveWaiting answers waiting { r with vWorkQueue }).state.node with
        mapOrphanBlocksByPrev := (resolveWaiting answers waiting { r with
          vWorkQueue }).state.node.mapOrphanBlocksByPrev.filter fun entry => entry.1 ≠ hashPrev } }) :
    CleanBlocks answers (room + 1) r := by
  unfold CleanBlocks
  rw [next]
  subst waits
  exact ⟨inner, fun _ => outer⟩

end

/-! ## Samples -/

namespace Sample

/-- A block behind the one with the nonce before its own. -/
def behind (nonce : UInt32) (tx : CTransaction) : CBlock :=
  { block nonce [tx] with
    hashPrevBlock := BitVec.ofNat 256 (nonce.toNat - 1)
    nTime := 1400000000 + nonce }

/-- A coinbase that takes more than the subsidy. -/
def greedy : CTransaction := { coinbase with vout := [⟨2000000000000, [0x51]⟩] }

/-- Everything that is asked of the disk succeeds. -/
def willing : AcceptAnswers where
  settings := settings
  disk := BlockFiles.goodDisk
  fBlockWritten := true
  fIndexWritten := true
  fIndexSynced := true
  turns := 3
  surroundings _ _ := sound

/-- A node with nothing but the root of the tree. -/
def rooted : BlockNode where
  chain := { twoBlocks with
    mapBlockIndex := fun hash => if hash = 5 then some (stored 5 none) else none
    setBlockIndexValid := [5]
    hashBestChain := 5 }
  files := .initial
  mapOrphanBlocks := ∅
  mapOrphanBlocksByPrev := []

/-- The node has received a block whose parent is missing. -/
def awaiting : BlockNode :=
  (rooted.processBlock (fun _ => willing) true true (behind 7 coinbase) none).1

/-- Then its parent has arrived, with this coinbase. -/
def resolved (tx : CTransaction) : BlockNode :=
  (awaiting.processBlock (fun _ => willing) true true (behind 6 tx) none).1

end Sample

namespace BlockNode

open Sample

set_option maxRecDepth 2000 in
theorem resolved_clean : awaiting.ProcessesCleanly (fun _ => willing) true (behind 6 coinbase) none := by
  intro _ _
  refine ⟨.of_accepted (by decide), fun _ => ?_⟩
  have listed : (awaiting.acceptBlock willing (behind 6 coinbase) none).1.mapOrphanBlocksByPrev.length = 1 := by
    decide
  dsimp only
  rw [listed]
  -- the queue holds the parent and then the orphan behind it
  refine CleanBlocks.cons (behind 6 coinbase).getHash [] [behind 7 coinbase] rfl (by decide)
    ⟨.of_accepted (by decide), fun _ => trivial⟩ ?_
  have none_waits {r : BlockWork} : CleanWaiting (fun _ => willing) [] r := trivial
  exact CleanBlocks.cons (behind 7 coinbase).getHash [] [] (by decide) (by decide) none_waits
    (.nil (by decide))

theorem orphans_resolved_sample :
    (resolved coinbase).mapOrphanBlocksByPrev = [] ∧
      (resolved coinbase).OrphansListed ∧ (resolved coinbase).ParentsMissing := by
  have first : Run ProcessesCleanly awaiting :=
    .call (.start _ _) (fun _ => willing) true true (behind 7 coinbase) none
      (fun _ parent => absurd parent (by decide +kernel)) (by decide +kernel)
  have second : Run ProcessesCleanly (resolved coinbase) :=
    .call first (fun _ => willing) true true (behind 6 coinbase) none resolved_clean (by decide +kernel)
  exact ⟨by decide +kernel, orphans_resolved _ second⟩

/-- The parent is entered in the tree before ConnectBlock refuses its coinbase, so the
orphan behind it stays stored. -/
theorem orphans_stranded :
    Run (fun _ _ _ _ _ => True) (resolved greedy) ∧
      (resolved greedy).mapOrphanBlocks[(behind 7 coinbase).getHash]? = some (behind 7 coinbase) ∧
      ¬ (resolved greedy).ParentsMissing := by
  have stored : (resolved greedy).mapOrphanBlocks[(behind 7 coinbase).getHash]? = some (behind 7 coinbase) := by
    decide +kernel
  refine ⟨?_, stored, fun missing => ?_⟩
  · exact .call (.call (.start _ _) (fun _ => willing) true true (behind 7 coinbase) none trivial (by decide +kernel))
      (fun _ => willing) true true (behind 6 greedy) none trivial (by decide +kernel)
  · have known : ((resolved greedy).chain.mapBlockIndex (behind 7 coinbase).hashPrevBlock).isSome = true := by
      decide +kernel
    exact Option.isSome_iff_ne_none.mp known (missing _ _ stored)

end BlockNode

end BitCrystal
