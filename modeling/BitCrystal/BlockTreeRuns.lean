import BitCrystal.BestChainRuns

namespace BitCrystal

open Data BlockMap

/-! # The block tree over the runs of a node -/

/-- The coin database is written in every call of SetBestChain. -/
def AcceptAnswers.CoinsWritten (answers : AcceptAnswers) : Prop :=
  ∀ turn hash, (answers.surroundings turn hash).CoinsWritten

namespace ChainState

variable {s : ChainState} {hash : UInt256}

/-- Nothing but the genesis block, which is the tip. -/
structure Rooted (s : ChainState) (index : CBlockIndex) : Prop where
  map : s.mapBlockIndex = fun hash => if hash = hashGenesisBlock then some index else none
  owned : index.phashBlock = some hashGenesisBlock
  root : index.pprev = none
  leaf : index.pnext = none
  height : 0 ≤ index.nHeight
  sound : index.nStatus &&& BLOCK_FAILED_MASK = 0
  valid : s.setBlockIndexValid = [hashGenesisBlock]
  best : s.pindexBest = some hashGenesisBlock
  coins : s.pcoinsTip.best = some hashGenesisBlock
  work : s.nBestChainWork = index.nChainWork

structure Founded (s : ChainState) : Prop extends s.Candidates where
  genesis : s.mapBlockIndex hashGenesisBlock ≠ none

theorem Rooted.founded {index : CBlockIndex} (rooted : s.Rooted index) : s.Founded := by
  have only : ∀ hash other, s.mapBlockIndex hash = some other → hash = hashGenesisBlock ∧ other = index := by
    intro hash other known
    rw [rooted.map] at known
    dsimp only at known
    split at known
    · exact ⟨‹_›, (Option.some.inj known).symm⟩
    · contradiction
  have known : s.mapBlockIndex hashGenesisBlock = some index := by
    rw [rooted.map]
    exact if_pos rfl
  have sound : ¬s.mapBlockIndex.Failed hashGenesisBlock := by
    rintro ⟨other, found, failed⟩
    rw [(only _ _ found).2] at failed
    exact failed rooted.sound
  have undoomed : ¬s.mapBlockIndex.Doomed hashGenesisBlock := by
    rintro ⟨ancestor, path, failed⟩
    rw [path.eq_of_root ((parent_of known).trans rooted.root)] at failed
    exact sound failed
  have tree : s.mapBlockIndex.Tree := by
    constructor
    · intro hash other found
      obtain ⟨rfl, rfl⟩ := only hash other found
      exact rooted.owned
    · intro hash other pprev found up
      rw [(only hash other found).2, rooted.root] at up
      contradiction
    · intro hash other found
      rw [(only hash other found).2]
      exact rooted.height
  refine { linked := ⟨tree, rooted.coins.trans rooted.best.symm, ?_⟩, clean := ?_, complete := ?_, tip := ?_, genesis := ?_ }
  · intro hash other child found next
    rw [(only hash other found).2, rooted.leaf] at next
    contradiction
  · intro hash member
    rw [rooted.valid, List.mem_singleton] at member
    rw [member]
    exact ⟨⟨index, known⟩, sound⟩
  · intro hash other found
    rw [(only hash other found).1, rooted.valid]
    exact Or.inl List.mem_cons_self
  · exact ⟨hashGenesisBlock, index, rooted.best, known, undoomed, rooted.work⟩
  · rw [known]
    simp

/-! ## A block enters the tree -/

section

variable [Hashing] {block : CBlock} {pos : CDiskBlockPos} {previous : CBlockIndex}

theorem enter_other (different : hash ≠ block.getHash) : (s.enter block pos).mapBlockIndex hash = s.mapBlockIndex hash :=
  if_neg different

theorem enter_entry (pos : CDiskBlockPos) (fresh : s.mapBlockIndex block.getHash = none)
    (parent : s.mapBlockIndex block.hashPrevBlock = some previous) :
    ∃ index, (s.enter block pos).mapBlockIndex block.getHash = some index ∧
      index.phashBlock = some block.getHash ∧ index.pprev = some block.hashPrevBlock ∧
      index.nHeight = previous.nHeight + 1 ∧ index.pnext = none ∧
      index.nStatus = BLOCK_VALID_TRANSACTIONS ||| BLOCK_HAVE_DATA := by
  have different : block.hashPrevBlock ≠ block.getHash := by
    intro same
    rw [same, fresh] at parent
    contradiction
  refine ⟨_, if_pos rfl, rfl, ?_, ?_, rfl, rfl⟩
  · simp only [if_neg different, parent, Option.map_some]
  · simp only [if_neg different, parent, Option.map_some, Option.getD_some]

theorem enter_parent (tree : s.mapBlockIndex.Tree) (fresh : s.mapBlockIndex block.getHash = none)
    {ancestor : UInt256} (known : ∃ index, s.mapBlockIndex hash = some index) :
    Ancestor (s.enter block pos).mapBlockIndex.parent ancestor hash ↔ Ancestor s.mapBlockIndex.parent ancestor hash := by
  refine Ancestor.congr (fun hash => ∃ index, s.mapBlockIndex hash = some index) ?_ ?_ known
  · rintro child ⟨index, found⟩
    have different : child ≠ block.getHash := by
      rintro rfl
      rw [fresh] at found
      contradiction
    rw [BlockMap.parent, BlockMap.parent, enter_other different]
  · rintro child above ⟨index, found⟩ up
    obtain ⟨before, present, _⟩ := tree.above child index above found ((parent_of found).symm.trans up)
    exact ⟨before, present⟩

theorem Founded.enter (founded : s.Founded) (pos : CDiskBlockPos) (fresh : s.mapBlockIndex block.getHash = none)
    (parent : s.mapBlockIndex block.hashPrevBlock = some previous) : (s.enter block pos).Founded := by
  have tree := founded.linked.tree
  obtain ⟨own, entered, phashBlock, pprev, nHeight, pnext, nStatus⟩ := enter_entry pos fresh parent
  have old : ∀ {hash : UInt256} {index : CBlockIndex}, s.mapBlockIndex hash = some index → hash ≠ block.getHash := by
    rintro hash index found rfl
    rw [fresh] at found
    contradiction
  have kept : ∀ {hash : UInt256} {index : CBlockIndex}, s.mapBlockIndex hash = some index →
      (s.enter block pos).mapBlockIndex hash = some index :=
    fun found => (enter_other (old found)).trans found
  -- an entry is the new one, or one from before
  have cases : ∀ hash index, (s.enter block pos).mapBlockIndex hash = some index →
      (hash = block.getHash ∧ index = own) ∨ s.mapBlockIndex hash = some index := by
    intro hash index known
    by_cases same : hash = block.getHash
    · rw [same, entered] at known
      exact Or.inl ⟨same, (Option.some.inj known).symm⟩
    · exact Or.inr ((enter_other same).symm.trans known)
  have unmarked : ¬(s.enter block pos).mapBlockIndex.Failed block.getHash := by
    rintro ⟨index, found, failed⟩
    rw [entered] at found
    cases found
    rw [nStatus] at failed
    exact failed (by decide)
  have failed_iff : ∀ {hash : UInt256}, (∃ index, s.mapBlockIndex hash = some index) →
      ((s.enter block pos).mapBlockIndex.Failed hash ↔ s.mapBlockIndex.Failed hash) := by
    rintro hash ⟨index, found⟩
    rw [Failed, Failed, enter_other (old found)]
  have doomed_of : ∀ {hash : UInt256}, (∃ index, s.mapBlockIndex hash = some index) →
      ((s.enter block pos).mapBlockIndex.Doomed hash ↔ s.mapBlockIndex.Doomed hash) := by
    intro hash known
    constructor
    · rintro ⟨ancestor, path, failed⟩
      rw [enter_parent tree fresh known] at path
      refine ⟨ancestor, path, ?_⟩
      obtain ⟨index, found, marked⟩ := failed
      rcases cases ancestor index found with ⟨rfl, rfl⟩ | before
      · exact absurd ⟨index, found, marked⟩ unmarked
      · exact ⟨index, before, marked⟩
    · rintro ⟨ancestor, path, failed⟩
      obtain ⟨index, found, marked⟩ := failed
      exact ⟨ancestor, (enter_parent tree fresh known).mpr path, index, kept found, marked⟩
  obtain ⟨best, tipIndex, tip, known, undoomed, work⟩ := founded.tip
  refine { linked := ⟨?_, founded.linked.tip, ?_⟩, clean := ?_, complete := ?_, tip := ?_, genesis := ?_ }
  · constructor
    · intro hash index found
      rcases cases hash index found with ⟨rfl, rfl⟩ | before
      · exact phashBlock
      · exact tree.owned hash index before
    · intro hash index above found up
      rcases cases hash index found with ⟨rfl, rfl⟩ | before
      · rw [pprev] at up
        cases up
        exact ⟨previous, kept parent, nHeight⟩
      · obtain ⟨upper, present, one⟩ := tree.above hash index above before up
        exact ⟨upper, kept present, one⟩
    · intro hash index found
      rcases cases hash index found with ⟨rfl, rfl⟩ | before
      · have low := tree.nonneg _ previous parent
        omega
      · exact tree.nonneg hash index before
  · intro hash index child found next
    rcases cases hash index found with ⟨rfl, rfl⟩ | before
    · rw [pnext] at next
      contradiction
    · obtain ⟨up, best', tip', above⟩ := founded.linked.next hash index child before next
      obtain ⟨childIndex, present, _⟩ := Option.bind_eq_some_iff.mp up
      refine ⟨?_, best', tip', ?_⟩
      · rw [BlockMap.parent, kept present]
        rwa [BlockMap.parent, present] at up
      · rw [tip] at tip'
        cases tip'
        exact (enter_parent tree fresh ⟨tipIndex, known⟩).mpr above
  · intro hash member
    rcases List.mem_cons.mp member with rfl | before
    · exact ⟨⟨own, entered⟩, unmarked⟩
    · obtain ⟨present, sound⟩ := founded.clean hash before
      obtain ⟨index, found⟩ := present
      exact ⟨⟨index, kept found⟩, mt (failed_iff ⟨index, found⟩).mp sound⟩
  · intro hash index found
    rcases cases hash index found with ⟨rfl, rfl⟩ | before
    · exact Or.inl List.mem_cons_self
    · rw [doomed_of ⟨index, before⟩]
      exact (founded.complete hash index before).imp_left (List.mem_cons_of_mem _)
  · exact ⟨best, tipIndex, tip, kept known, mt (doomed_of ⟨tipIndex, known⟩).mp undoomed, work⟩
  · obtain ⟨index, found⟩ := Option.ne_none_iff_exists'.mp founded.genesis
    rw [kept found]
    simp

variable [PubKeys] [ScriptMachine] {answers : AcceptAnswers}

/-- What a call of AcceptBlock keeps that comes back -/
structure Continues (s after : ChainState) : Prop where
  founded : after.Founded
  work : s.nBestChainWork ≤ after.nBestChainWork

theorem connectEntered_throws_nothing (s : ChainState) (what : String) :
    (s.connectEntered answers).result ≠ .error (.exception what) := by
  unfold connectEntered
  split
  · exact fun thrown => by cases thrown
  · unfold Outcome.andThen
    split
    · exact connectBestBlock_throws_nothing _ _ s what
    · dsimp only
      split
      · exact fun thrown => by cases thrown
      · exact fun thrown => by cases thrown

theorem Founded.connectEntered (founded : s.Founded) (written : answers.CoinsWritten)
    (returns : Returns (s.connectEntered answers).result) :
    Continues s (s.connectEntered answers).state ∧
      ((s.connectEntered answers).result = .ok () → (s.connectEntered answers).state.Maximal) := by
  unfold ChainState.connectEntered at returns ⊢
  cases index : answers.fIndexWritten with
  | false => exact ⟨⟨founded, BitVec.le_refl _⟩, fun ended => by cases ended⟩
  | true =>
      simp only [index, Bool.not_true, Bool.false_eq_true, if_false] at returns ⊢
      have shape := connectBestBlock_shape answers.surroundings answers.turns s
      have back : Returns (connectBestBlock answers.surroundings answers.turns s).result := by
        cases verdict : (connectBestBlock answers.surroundings answers.turns s).result with
        | ok done => exact trivial
        | error reason => simpa only [Outcome.andThen, verdict] using returns
      obtain ⟨⟨candidates, work⟩, maximal⟩ := connectBestBlock_advances written founded.toCandidates back
      have continues : Continues s (connectBestBlock answers.surroundings answers.turns s).state :=
        ⟨{ toCandidates := candidates, genesis := fun missing => founded.genesis (SameShape.none shape.symm missing) }, work⟩
      unfold Outcome.andThen
      cases verdict : (connectBestBlock answers.surroundings answers.turns s).result with
      | error reason =>
          refine ⟨continues, fun ended => ?_⟩
          dsimp only at ended
          rw [verdict] at ended
          contradiction
      | ok done =>
          dsimp only
          split
          · exact ⟨continues, fun ended => by cases ended⟩
          · exact ⟨continues, fun _ => maximal verdict⟩

end

end ChainState

/-! ## AcceptBlock -/

namespace BlockNode

variable [Hashing] {s stored : BlockNode} {block : CBlock} {dbp : Option CDiskBlockPos} {answers : AcceptAnswers}

theorem storeBlock_chain {found : Except Failure CDiskBlockPos} (run : s.storeBlock answers block dbp = (stored, found)) :
    ∃ blockFiles, stored.chain = { s.chain with blockFiles } := by
  unfold storeBlock at run
  split at run
  · cases run
    exact ⟨s.chain.blockFiles, rfl⟩
  · dsimp only at run
    split at run
    · cases run
      exact ⟨s.chain.blockFiles, rfl⟩
    · cases run
      exact ⟨s.chain.blockFiles, rfl⟩
    · split at run
      · cases run
        exact ⟨s.chain.blockFiles, rfl⟩
      · cases run
        exact ⟨_, rfl⟩

theorem storeBlock_parent {pos : CDiskBlockPos} (run : s.storeBlock answers block dbp = (stored, .ok pos))
    (genesis : s.chain.mapBlockIndex hashGenesisBlock ≠ none) :
    s.chain.mapBlockIndex block.getHash = none ∧ ∃ previous, s.chain.mapBlockIndex block.hashPrevBlock = some previous := by
  unfold storeBlock at run
  split at run
  · cases run
  · rename_i nHeight checked
    rw [ChainState.acceptBlockChecks, bind_eq_ok] at checked
    obtain ⟨_, fresh, checked⟩ := checked
    rw [require_eq_ok, Option.isNone_iff_eq_none] at fresh
    refine ⟨fresh, ?_⟩
    split at checked
    · rename_i same
      rw [same] at fresh
      exact absurd fresh genesis
    · rw [bind_eq_ok] at checked
      obtain ⟨previous, found, _⟩ := checked
      exact ⟨previous, expect_eq_ok.mp found⟩

variable [PubKeys] [ScriptMachine]

theorem acceptBlock_continues (founded : s.chain.Founded) (written : answers.CoinsWritten)
    (returns : Returns (s.acceptBlock answers block dbp).2) :
    ChainState.Continues s.chain (s.acceptBlock answers block dbp).1.chain ∧
      ((s.acceptBlock answers block dbp).2 = .ok () → (s.acceptBlock answers block dbp).1.chain.Maximal) := by
  unfold acceptBlock at returns ⊢
  cases run : s.storeBlock answers block dbp with
  | mk stored found =>
      obtain ⟨blockFiles, same⟩ := storeBlock_chain run
      have kept : stored.chain.Founded := by
        rw [same]
        exact { linked := ⟨founded.linked.tree, founded.linked.tip, founded.linked.next⟩, clean := founded.clean,
                complete := founded.complete, tip := founded.tip, genesis := founded.genesis }
      have work : stored.chain.nBestChainWork = s.chain.nBestChainWork := by rw [same]
      cases found with
      | error reason => exact ⟨⟨kept, work ▸ BitVec.le_refl _⟩, fun ended => by cases ended⟩
      | ok pos =>
          obtain ⟨fresh, previous, parent⟩ := storeBlock_parent run founded.genesis
          have fresh' : stored.chain.mapBlockIndex block.getHash = none := by
            rw [same]
            exact fresh
          have parent' : stored.chain.mapBlockIndex block.hashPrevBlock = some previous := by
            rw [same]
            exact parent
          simp only [run] at returns ⊢
          have added : stored.chain.addToBlockIndex answers block pos = (stored.chain.enter block pos).connectEntered answers := by
            rw [ChainState.addToBlockIndex, if_neg (by simp [fresh'])]
          rw [added] at returns ⊢
          have entered := kept.enter pos fresh' parent'
          have uncaught : ((stored.chain.enter block pos).connectEntered answers).caught =
              (stored.chain.enter block pos).connectEntered answers := by
            unfold Outcome.caught
            split
            · rename_i what thrown
              exact absurd thrown (ChainState.connectEntered_throws_nothing _ what)
            · rfl
          rw [uncaught] at returns ⊢
          obtain ⟨continues, maximal⟩ := entered.connectEntered written returns
          exact ⟨⟨continues.founded, work ▸ continues.work⟩, maximal⟩

end BlockNode

/-! ## ProcessBlock -/

section

variable [Hashing] [PubKeys] [ScriptMachine] {answers : Nat → AcceptAnswers} {kept : ChainState → Prop}

/-- What every call of AcceptBlock keeps that comes back. -/
def AcceptKeeps (answers : Nat → AcceptAnswers) (kept : ChainState → Prop) : Prop :=
  ∀ (s : BlockNode) (call : Nat) (block : CBlock) (dbp : Option CDiskBlockPos), kept s.chain →
    Returns (s.acceptBlock (answers call) block dbp).2 → kept (s.acceptBlock (answers call) block dbp).1.chain

theorem AcceptKeeps.resolveBlock (keeps : AcceptKeeps answers kept) {r : BlockWork} {pblockOrphan : CBlock}
    (ended : (resolveBlock answers r pblockOrphan).failure = none) (start : kept r.node.chain) :
    kept (resolveBlock answers r pblockOrphan).state.node.chain := by
  have step := keeps r.node r.calls pblockOrphan none start
  unfold BitCrystal.resolveBlock at ended ⊢
  generalize r.node.acceptBlock (answers r.calls) pblockOrphan none = accepted at step ended ⊢
  obtain ⟨node, result⟩ := accepted
  cases result with
  | ok done => exact step trivial
  | error reason =>
      dsimp only at ended ⊢
      split at ended
      · rename_i returns
        rw [if_pos returns]
        exact step returns
      · contradiction

theorem AcceptKeeps.resolveWaiting (keeps : AcceptKeeps answers kept) {waiting : List CBlock} {r : BlockWork}
    (ended : (resolveWaiting answers waiting r).failure = none) (start : kept r.node.chain) :
    kept (resolveWaiting answers waiting r).state.node.chain := by
  induction waiting generalizing r with
  | nil => exact start
  | cons pblockOrphan waiting ih =>
      unfold BitCrystal.resolveWaiting at ended ⊢
      obtain ⟨first, next⟩ := Step.andThen_failure_none ended
      rw [next] at ended ⊢
      exact ih ended (keeps.resolveBlock first start)

theorem AcceptKeeps.resolveBlocks (keeps : AcceptKeeps answers kept) {room : Nat} {r : BlockWork}
    (ended : (resolveBlocks answers room r).failure = none) (start : kept r.node.chain) :
    kept (resolveBlocks answers room r).state.node.chain := by
  induction room generalizing r with
  | zero => contradiction
  | succ room ih =>
      unfold BitCrystal.resolveBlocks at ended ⊢
      cases next : r.vWorkQueue with
      | nil =>
          simp only [next] at ended ⊢
          exact start
      | cons hashPrev vWorkQueue =>
          simp only [next] at ended ⊢
          obtain ⟨first, same⟩ := Step.andThen_failure_none ended
          rw [same] at ended ⊢
          exact ih ended (keeps.resolveWaiting first start)

theorem AcceptKeeps.processBlock (keeps : AcceptKeeps answers kept) {s : BlockNode} {fCheckpoints pfrom : Bool}
    {block : CBlock} {dbp : Option CDiskBlockPos} (returns : Returns (s.processBlock answers fCheckpoints pfrom block dbp).2)
    (start : kept s.chain) : kept (s.processBlock answers fCheckpoints pfrom block dbp).1.chain := by
  have step := keeps s 0 block dbp start
  unfold BlockNode.processBlock at returns ⊢
  split
  · exact start
  · split
    · cases pfrom with
      | false => exact start
      | true => exact start
    · rename_i checked orphan
      simp only [checked, orphan, Bool.false_eq_true, if_false] at returns
      generalize s.acceptBlock (answers 0) block dbp = accepted at step returns ⊢
      obtain ⟨node, result⟩ := accepted
      cases result with
      | error reason => exact step returns
      | ok done =>
          dsimp only at returns ⊢
          cases stop : (BitCrystal.resolveBlocks answers (node.mapOrphanBlocksByPrev.length + 2)
              ⟨node, [block.getHash], 1⟩).failure with
          | some reason =>
              simp only [stop] at returns
              exact absurd (resolveBlocks_failure stop) (by simpa [Returns, Sat] using returns)
          | none => exact keeps.resolveBlocks stop (step trivial)

/-! ## Runs -/

/-- The chain states that calls of AcceptBlock reach, starting with the genesis block. -/
inductive ChainState.Grown : ChainState → Prop
  | start {s : ChainState} {index : CBlockIndex} (rooted : s.Rooted index) : ChainState.Grown s
  | accept {s : BlockNode} (grown : ChainState.Grown s.chain) {answers : AcceptAnswers} (written : answers.CoinsWritten)
      (block : CBlock) (dbp : Option CDiskBlockPos) (returns : Returns (s.acceptBlock answers block dbp).2) :
      ChainState.Grown (s.acceptBlock answers block dbp).1.chain

theorem ChainState.Grown.founded {s : ChainState} (grown : s.Grown) : s.Founded := by
  induction grown with
  | start rooted => exact rooted.founded
  | accept _ written block dbp returns ih => exact (BlockNode.acceptBlock_continues ih written returns).1.founded

end

/-! ## Samples -/

namespace Sample

/-- The index entry of the genesis block -/
def genesisIndex : CBlockIndex := { stored 5 none with phashBlock := some hashGenesisBlock }

/-- A block behind the genesis block. -/
def second : CBlock := { behind 6 coinbase with hashPrevBlock := hashGenesisBlock }

end Sample

open Sample

end BitCrystal
