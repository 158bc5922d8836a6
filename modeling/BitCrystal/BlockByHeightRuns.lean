import BitCrystal.BlockByHeight

namespace BitCrystal

open Data BlockMap

/-! # FindBlockByHeight across reorganisations -/

/-! ## The links after a switch -/

namespace BlockMap

variable {map other : BlockMap} {tip : Option UInt256}

theorem complete_of_next (same : SameShape map other)
    (next : ∀ hash, (other hash).map CBlockIndex.pnext = (map hash).map CBlockIndex.pnext)
    (complete : map.Complete tip) : other.Complete tip := by
  intro best hash child top up below
  rw [same.parent_eq] at up below
  have before := complete best hash child top up below
  have both := next hash
  cases found : map hash <;> cases also : other hash <;> simp_all

theorem connected_next {above : UInt256 → Option UInt256} {hashes : List UInt256} {child hash : UInt256}
    {index : CBlockIndex} (member : child ∈ hashes) (up : above child = some hash)
    (known : hashes.foldl (fun links head => links.setNext (above head) (some head)) map hash = some index) :
    index.pnext ≠ none := by
  cases foldl_setNext known with
  | inl set =>
      obtain ⟨head, -, -, same⟩ := set
      rw [same]
      simp
  | inr unset => exact absurd up (unset.1 child member)

theorem kept_next {above pnext : UInt256 → Option UInt256} {hashes : List UInt256} {hash : UInt256}
    (apart : ∀ head ∈ hashes, above head ≠ some hash) :
    hashes.foldl (fun links head => links.setNext (above head) (pnext head)) map hash = map hash := by
  induction hashes generalizing map with
  | nil => rfl
  | cons head rest ih =>
      have others : ∀ later ∈ rest, above later ≠ some hash :=
        fun later member => apart later (List.mem_cons_of_mem head member)
      rw [List.foldl_cons, ih others]
      cases named : above head with
      | none => rfl
      | some pprev =>
          have different : hash ≠ pprev := by
            intro same
            exact apart head List.mem_cons_self (named.trans (congrArg some same.symm))
          exact update_other different _

end BlockMap

theorem PathDown.apart_of_lower {map : BlockMap} (tree : map.Tree) {start : Option UInt256} {fork child hash : UInt256}
    {hashes : List UInt256} (path : PathDown map start hashes (some fork)) (up : map.parent child = some hash)
    (below : Ancestor map.parent child fork) : ∀ head ∈ hashes, map.parent head ≠ some hash := by
  intro head member same
  have above := path.stop_lower tree head member
  have low := below.height_le tree.graded
  have one := tree.graded head hash same
  have also := tree.graded child hash up
  omega

theorem Plans.relink_complete {map : BlockMap} {tip : Option UInt256} {pindexNew : UInt256} {switch : Switch}
    {pfork : Option UInt256} (tree : map.Tree) (complete : map.Complete tip)
    (plans : Plans map tip pindexNew switch pfork) :
    (BitCrystal.relink map switch).Complete (some pindexNew) := by
  intro best hash child top up below
  cases top
  rw [(relink_shape switch).parent_eq] at up below
  rw [relink_eq]
  intro missing
  obtain ⟨childIndex, childKnown, pprev⟩ := Option.bind_eq_some_iff.mp up
  obtain ⟨index, known, -⟩ := tree.above child childIndex hash childKnown pprev
  have same : SameShape map (BitCrystal.relink map switch) := relink_shape switch
  obtain ⟨after, afterKnown, -⟩ := same.symm.entry known
  rw [relink_eq] at afterKnown
  rw [afterKnown, Option.bind_some] at missing
  cases plans.connect.mem_or_ancestor rfl below with
  | inl connected => exact connected_next (List.mem_reverse.mp connected) up afterKnown missing
  | inr stays =>
      obtain ⟨fork, rfl, under⟩ := stays
      have unset := plans.connect.apart_of_lower tree up under
      have uncleared := plans.disconnect.apart_of_lower tree up under
      rw [kept_next fun head member => unset head (List.mem_reverse.mpr member), kept_next uncleared] at afterKnown
      cases tip with
      | none =>
          cases first : switch.vDisconnect with
          | nil =>
              have impossible := plans.disconnect
              rw [first] at impossible
              cases impossible
          | cons head rest =>
              have impossible := plans.disconnect
              rw [first] at impossible
              cases impossible.1
      | some best =>
          have old := complete best hash child rfl up (under.trans (plans.disconnect.stop_ancestor rfl))
          rw [afterKnown] at old
          exact old missing

namespace ChainState

section

variable [Hashing] [PubKeys] [ScriptMachine] {env : Surroundings} {reorganise : ChainState → Outcome}
  {s : ChainState} {pindexNew : UInt256}

omit [PubKeys] in
theorem moveTip_height {switch : Switch} {vResurrect vDelete : List CTransaction} {done : Unit}
    (run : (s.moveTip env pindexNew switch vResurrect vDelete).result = .ok done) :
    ∃ index, (s.moveTip env pindexNew switch vResurrect vDelete).state.mapBlockIndex pindexNew = some index ∧
      (s.moveTip env pindexNew switch vResurrect vDelete).state.nBestHeight = index.nHeight := by
  unfold moveTip at run ⊢
  dsimp only at run ⊢
  split at run
  · cases run
  · cases run
  · rename_i index pool known updated
    exact ⟨index, known, rfl⟩

theorem commit_height {switch : Switch} {view : CoinsView} {vResurrect vDelete : List CTransaction} {done : Unit}
    (run : (s.commit env pindexNew switch view vResurrect vDelete).result = .ok done) :
    ∃ index, (s.commit env pindexNew switch view vResurrect vDelete).state.mapBlockIndex pindexNew = some index ∧
      (s.commit env pindexNew switch view vResurrect vDelete).state.nBestHeight = index.nHeight := by
  unfold commit at run ⊢
  dsimp only at run ⊢
  split at run
  · split at run
    · cases run
    · split at run
      · cases run
      · rename_i writes space coins
        rw [if_pos writes, if_neg space, if_neg coins]
        exact moveTip_height run
  · rename_i writes
    rw [if_neg writes]
    exact moveTip_height run

omit [Hashing] [PubKeys] [ScriptMachine] in
theorem connectFailed_result {hash : UInt256} {reason : Failure} {done : Unit} :
    (s.connectFailed reorganise pindexNew hash reason).result ≠ .ok done := by
  intro run
  unfold connectFailed at run
  split at run
  · unfold Outcome.andThen at run
    split at run
    · rename_i failed
      rw [failed] at run
      cases run
    · cases run
  · cases run

theorem setBestChain_height {done : Unit} (run : (s.setBestChain reorganise env pindexNew).result = .ok done) :
    ∃ index, (s.setBestChain reorganise env pindexNew).state.mapBlockIndex pindexNew = some index ∧
      (s.setBestChain reorganise env pindexNew).state.nBestHeight = index.nHeight := by
  unfold setBestChain at run ⊢
  cases unwound : s.unwind pindexNew with
  | error reason =>
      simp only [unwound] at run
      cases run
  | ok result =>
      obtain ⟨switch, u⟩ := result
      simp only [unwound] at run ⊢
      cases wound : s.wind env switch u with
      | mk w stop =>
          cases stop with
          | some failure =>
              simp only [wound] at run
              exact absurd run connectFailed_result
          | none =>
              simp only [wound] at run ⊢
              exact commit_height run

end

end ChainState

namespace BlockFinder

section

variable [Hashing] [PubKeys] [ScriptMachine]

/-- ConnectBlock stores the pointer to the genesis block when it connects it. -/
def genesisIndex (env : Surroundings) (blockFiles : CDiskBlockPos → Option CBlock) :
    List UInt256 → Winding → Option UInt256 → Option UInt256
  | [], _, pindexGenesisBlock => pindexGenesisBlock
  | hash :: rest, w, pindexGenesisBlock =>
      let step := connectTip env blockFiles hash w
      match step.failure with
      | some _ => pindexGenesisBlock
      | none =>
          genesisIndex env blockFiles rest step.state
            (if hash = hashGenesisBlock then some hash else pindexGenesisBlock)

/-- `pindexGenesisBlock` after a call of SetBestChain. -/
def genesisAfter (env : Surroundings) (s : BlockFinder) (pindexNew : UInt256) : Option UInt256 :=
  match s.chain.unwind pindexNew with
  | .error _ => s.pindexGenesisBlock
  | .ok (switch, u) =>
      genesisIndex env s.chain.blockFiles switch.vConnect
        ⟨u.view, [], s.chain.mapBlockIndex, s.chain.undoFiles⟩ s.pindexGenesisBlock

/-- A call of SetBestChain that returns; a new tip resets the cached block. -/
def setBestChain (reorganise : ChainState → Outcome) (env : Surroundings) (s : BlockFinder) (pindexNew : UInt256) :
    Except Failure BlockFinder :=
  let outcome := s.chain.setBestChain reorganise env pindexNew
  match outcome.result with
  | .ok _ => .ok ⟨outcome.state, s.genesisAfter env pindexNew, none⟩
  | .error reason =>
      if reason.returnsFalse then .ok ⟨outcome.state, s.genesisAfter env pindexNew, s.pblockindexFBBHLast⟩
      else .error reason

inductive Call where
  | setBestChain (env : Surroundings) (pindexNew : UInt256)
  | findBlockByHeight (nHeight : Int)

def call (reorganise : ChainState → Outcome) (s : BlockFinder) : Call → Except Failure BlockFinder
  | .setBestChain env pindexNew => s.setBestChain reorganise env pindexNew
  | .findBlockByHeight nHeight => (s.findBlockByHeight nHeight).map Prod.fst

/-- A sequence of calls that return. -/
def run (reorganise : ChainState → Outcome) (s : BlockFinder) (calls : List Call) : Except Failure BlockFinder :=
  calls.foldlM (call reorganise) s

def Writes (s : BlockFinder) : Call → Prop
  | .setBestChain env pindexNew => s.chain.WritesCoins env pindexNew
  | .findBlockByHeight _ => True

/-- No call of the sequence fails to write the coin database. -/
def AlwaysWrites (reorganise : ChainState → Outcome) (s : BlockFinder) : List Call → Prop
  | [] => True
  | first :: rest =>
      s.Writes first ∧ ∀ next, s.call reorganise first = .ok next → next.AlwaysWrites reorganise rest

/-! ## One call -/

variable {env : Surroundings} {reorganise : ChainState → Outcome} {s next : BlockFinder} {pindexNew : UInt256}

theorem genesisIndex_kept (blockFiles : CDiskBlockPos → Option CBlock) (hashes : List UInt256) (w : Winding) :
    genesisIndex env blockFiles hashes w (some hashGenesisBlock) = some hashGenesisBlock := by
  induction hashes generalizing w with
  | nil => rfl
  | cons hash rest ih =>
      rw [genesisIndex]
      cases (connectTip env blockFiles hash w).failure with
      | some reason => rfl
      | none =>
          by_cases genesis : hash = hashGenesisBlock
          · simp only [if_pos genesis]
            rw [genesis]
            exact ih _
          · simp only [if_neg genesis]
            exact ih _

theorem genesisIndex_connected {blockFiles : CDiskBlockPos → Option CBlock} {hashes : List UInt256} {w last : Winding}
    (connected : connectTips env blockFiles hashes w = (last, none)) (member : hashGenesisBlock ∈ hashes)
    (old : Option UInt256) : genesisIndex env blockFiles hashes w old = some hashGenesisBlock := by
  induction hashes generalizing w old with
  | nil => cases member
  | cons hash rest ih =>
      rw [connectTips] at connected
      rw [genesisIndex]
      cases failed : (connectTip env blockFiles hash w).failure with
      | some reason =>
          simp only [failed] at connected
          cases connected
      | none =>
          simp only [failed] at connected ⊢
          by_cases genesis : hash = hashGenesisBlock
          · rw [if_pos genesis, genesis]
            exact genesisIndex_kept _ _ _
          · apply ih connected
            cases member with
            | head => exact absurd rfl genesis
            | tail _ later => exact later

theorem genesisAfter_kept (before : s.pindexGenesisBlock = some hashGenesisBlock) (env : Surroundings)
    (pindexNew : UInt256) : s.genesisAfter env pindexNew = some hashGenesisBlock := by
  unfold genesisAfter
  split
  · exact before
  · rw [before]
    exact genesisIndex_kept _ _ _

theorem genesisAfter_first {switch : Switch} {u : Unwinding} {w : Winding} {after : ChainState}
    (tree : s.chain.mapBlockIndex.Tree) (rooted : s.chain.mapBlockIndex.Rooted) (none_before : s.chain.pcoinsTip.best = none)
    (moved : s.chain.Moved env pindexNew switch u w after) :
    s.genesisAfter env pindexNew = some hashGenesisBlock := by
  obtain ⟨pfork, plans, -⟩ := ChainState.unwind_plans tree moved.unwound
  rw [none_before] at plans
  have root : pfork = none := by
    have down := plans.disconnect
    cases first : switch.vDisconnect with
    | nil =>
        rw [first] at down
        exact down.symm
    | cons head rest =>
        rw [first] at down
        cases down.1
  subst root
  have known : (s.chain.mapBlockIndex pindexNew).isSome := by
    cases plans.connect.known rfl with
    | inl there => exact there
    | inr ended => cases ended
  obtain ⟨index, found⟩ := Option.isSome_iff_exists.mp known
  have above := rooted.genesis_ancestor tree index.nHeight.toNat found (by omega)
  have member : hashGenesisBlock ∈ switch.vConnect := by
    cases plans.connect.mem_or_ancestor rfl above with
    | inl connected => exact List.mem_reverse.mp connected
    | inr stops =>
        obtain ⟨fork, impossible, -⟩ := stops
        cases impossible
  unfold genesisAfter
  rw [moved.unwound]
  exact genesisIndex_connected moved.wound member _

theorem Navigable.moved {switch : Switch} {u : Unwinding} {w : Winding} {after : ChainState} {index : CBlockIndex}
    (navigable : s.Navigable) (moved : s.chain.Moved env pindexNew switch u w after)
    (known : after.mapBlockIndex pindexNew = some index) (height : after.nBestHeight = index.nHeight) :
    Navigable ⟨after, s.genesisAfter env pindexNew, none⟩ := by
  have linked := navigable.linked
  obtain ⟨pfork, plans, -⟩ := ChainState.unwind_plans linked.tree moved.unwound
  rw [linked.tip] at plans
  have tree := moved.tree.shape.tree linked.tree
  have complete := complete_of_next moved.tree.shape (moved.tree.field CBlockIndex.pnext fun _ => rfl)
    navigable.complete
  apply Navigable.mk
  · exact linked.moved moved
  · exact moved.shape.rooted navigable.rooted
  · show after.mapBlockIndex.Complete after.pindexBest
    rw [moved.index, moved.best]
    exact (plans.shape moved.tree.shape).relink_complete tree complete
  · intro best top
    cases moved.best.symm.trans top
    show (after.mapBlockIndex pindexNew).isSome
    rw [known]
    rfl
  · intro best top
    cases moved.best.symm.trans top
    show after.nBestHeight = after.mapBlockIndex.height pindexNew
    rw [height_of known, height]
  · intro top
    cases moved.best.symm.trans top
  · intro best top
    cases before : s.chain.pindexBest with
    | none => exact genesisAfter_first linked.tree navigable.rooted (linked.tip.trans before) moved
    | some old => exact genesisAfter_kept (navigable.genesis old before) env pindexNew
  · intro last cached
    cases cached

theorem Navigable.stayed {after : ChainState} (navigable : s.Navigable)
    (stayed : s.chain.Stayed env pindexNew after) :
    Navigable ⟨after, s.genesisAfter env pindexNew, s.pblockindexFBBHLast⟩ := by
  have shape := stayed.tree.shape
  have best : after.pindexBest = s.chain.pindexBest := stayed.memory.best
  apply Navigable.mk
  · exact navigable.linked.stayed stayed
  · exact shape.rooted navigable.rooted
  · show after.mapBlockIndex.Complete after.pindexBest
    rw [best]
    exact complete_of_next shape stayed.memory.next navigable.complete
  · intro top same
    exact shape.isSome (navigable.known top (best.symm.trans same))
  · intro top same
    show after.nBestHeight = after.mapBlockIndex.height top
    rw [stayed.memory.height, shape.height_eq]
    exact navigable.height top (best.symm.trans same)
  · intro top
    show after.nBestHeight ≤ 0
    rw [stayed.memory.height]
    exact navigable.unstarted (best.symm.trans top)
  · intro top same
    exact genesisAfter_kept (navigable.genesis top (best.symm.trans same)) env pindexNew
  · intro last cached
    show ∃ top, after.pindexBest = some top ∧ Ancestor after.mapBlockIndex.parent last top
    rw [best, shape.parent_eq]
    exact navigable.cached last cached

theorem Navigable.setBestChain (navigable : s.Navigable) (writes : s.chain.WritesCoins env pindexNew)
    (returned : s.setBestChain reorganise env pindexNew = .ok next) : next.Navigable := by
  unfold BlockFinder.setBestChain at returned
  dsimp only at returned
  split at returned
  · rename_i done result
    cases returned
    obtain ⟨switch, u, w, moved⟩ := ChainState.setBestChain_ok result
    obtain ⟨index, known, height⟩ := ChainState.setBestChain_height result
    exact navigable.moved moved known height
  · rename_i reason result
    split at returned
    · rename_i false_
      cases returned
      exact navigable.stayed (ChainState.setBestChain_error navigable.linked.consistent writes result false_)
    · cases returned

theorem Navigable.call (navigable : s.Navigable) {first : Call} (writes : s.Writes first)
    (returned : s.call reorganise first = .ok next) : next.Navigable := by
  cases first with
  | setBestChain env pindexNew => exact navigable.setBestChain writes returned
  | findBlockByHeight nHeight =>
      obtain ⟨⟨after, hash⟩, found, same⟩ := ok_of_map_eq_ok returned
      cases same
      obtain ⟨rfl, best, top, above⟩ := navigable.returned found
      refine ⟨navigable.linked, navigable.rooted, navigable.complete, navigable.known, navigable.height,
        navigable.unstarted, navigable.genesis, ?_⟩
      intro last cached
      cases cached
      exact ⟨best, top, above⟩

theorem Navigable.run (navigable : s.Navigable) {calls : List Call} (writes : s.AlwaysWrites reorganise calls)
    (returned : s.run reorganise calls = .ok next) : next.Navigable := by
  induction calls generalizing s with
  | nil =>
      cases returned
      exact navigable
  | cons first rest ih =>
      obtain ⟨between, called, more⟩ := foldlM_cons_eq_ok.mp returned
      exact ih (navigable.call writes.1 called) (writes.2 between called) more

/-! ## From the start of the program -/

/-- What LoadBlockIndexGuts and the coin database promise: entries without links to successors. -/
structure Loadable (chain : ChainState) : Prop where
  tree : chain.mapBlockIndex.Tree
  rooted : chain.mapBlockIndex.Rooted
  unlinked : ∀ hash index, chain.mapBlockIndex hash = some index → index.pnext = none
  tip : ∀ best, chain.pcoinsTip.best = some best → (chain.mapBlockIndex best).isSome

end

/-- The globals after UnloadBlockIndex, LoadBlockIndexGuts and the end of LoadBlockIndexDB. Each block has
one link, so the order in which the links are set does not matter. -/
def load (chain : ChainState) : Except Failure BlockFinder := do
  let pindexGenesisBlock := (chain.mapBlockIndex hashGenesisBlock).map fun _ => hashGenesisBlock
  match chain.pcoinsTip.best with
  | none => return ⟨{ chain with pindexBest := none, nBestHeight := 0 }, pindexGenesisBlock, none⟩
  | some best =>
      let index ← expect (chain.mapBlockIndex best) (.undefined "LoadBlockIndexDB")
      let hashes ← entriesDown chain.mapBlockIndex none (heightRoom chain.mapBlockIndex best + 1) (some best)
      return ⟨{ chain with
          mapBlockIndex := relink chain.mapBlockIndex ⟨[], hashes.reverse⟩
          pindexBest := some best
          hashBestChain := best
          nBestHeight := index.nHeight
          nBestChainWork := index.nChainWork }, pindexGenesisBlock, none⟩

theorem load_navigable {chain : ChainState} {s : BlockFinder} (loadable : Loadable chain)
    (loaded : load chain = .ok s) : s.Navigable := by
  have tree := loadable.tree
  have unlinked : chain.mapBlockIndex.Linked none := by
    intro hash index child known link
    rw [loadable.unlinked hash index known] at link
    cases link
  unfold load at loaded
  cases top : chain.pcoinsTip.best with
  | none =>
      simp only [top, pure_eq_ok] at loaded
      subst loaded
      refine ⟨⟨tree, top, unlinked⟩, loadable.rooted, ?_, ?_, ?_, fun _ => Int.le_refl 0, ?_, ?_⟩
      · intro best hash child impossible
        cases impossible
      · intro best impossible
        cases impossible
      · intro best impossible
        cases impossible
      · intro best impossible
        cases impossible
      · intro last cached
        cases cached
  | some best =>
      simp only [top, bind_eq_ok, expect_eq_ok, pure_eq_ok] at loaded
      obtain ⟨index, known, hashes, down, rfl⟩ := loaded
      have connect : PathDown chain.mapBlockIndex (some best) hashes none := entriesDown_path down
      have plans : Plans chain.mapBlockIndex none best ⟨[], hashes.reverse⟩ none := by
        refine ⟨rfl, ?_, ?_, ?_⟩
        · rw [List.reverse_reverse]
          exact connect
        · intro other impossible
          cases impossible
        · intro impossible
          cases impossible
      have shape : SameShape chain.mapBlockIndex (BitCrystal.relink chain.mapBlockIndex ⟨[], hashes.reverse⟩) :=
        relink_shape _
      have root := loadable.rooted.genesis_ancestor tree index.nHeight.toNat known (by omega)
      have genesis := tree.known_of_ancestor root (loadable.tip best top)
      refine ⟨⟨shape.tree tree, top, plans.relink unlinked⟩, shape.rooted loadable.rooted,
        plans.relink_complete tree ?_, ?_, ?_, ?_, ?_, ?_⟩
      · intro other hash child impossible
        cases impossible
      · intro other same
        cases same
        exact shape.isSome (loadable.tip best top)
      · intro other same
        cases same
        show index.nHeight = (BitCrystal.relink chain.mapBlockIndex ⟨[], hashes.reverse⟩).height best
        rw [shape.height_eq, height_of known]
      · intro impossible
        cases impossible
      · intro other same
        obtain ⟨genesisIndex, genesisKnown⟩ := Option.isSome_iff_exists.mp genesis
        show (chain.mapBlockIndex hashGenesisBlock).map _ = _
        rw [genesisKnown]
        rfl
      · intro last cached
        cases cached

/-- From every block index that can be loaded, and after every sequence of calls of which none fails to
write the coin database, FindBlockByHeight returns the block of the height on the active chain. -/
theorem run_findBlockByHeight [Hashing] [PubKeys] [ScriptMachine] {reorganise : ChainState → Outcome}
    {chain : ChainState} {start s : BlockFinder} {calls : List Call} (loadable : Loadable chain)
    (loaded : load chain = .ok start) (writes : start.AlwaysWrites reorganise calls)
    (returned : start.run reorganise calls = .ok s) (started : s.chain.pindexBest ≠ none) {nHeight : Int}
    (nonneg : 0 ≤ nHeight) (within : nHeight ≤ s.chain.nBestHeight) :
    ∃ hash, s.findBlockByHeight nHeight = .ok ({ s with pblockindexFBBHLast := some hash }, hash) ∧
      s.AtHeight nHeight hash :=
  ((load_navigable loadable loaded).run writes returned).findBlockByHeight started nonneg within

end BlockFinder

namespace Sample

/-- The index entry of the genesis block. -/
def genesisEntry : CBlockIndex :=
  { index 4 with phashBlock := some hashGenesisBlock, pprev := none }

/-- A node that has loaded the genesis block, with three more blocks that are not connected yet. -/
def threeAhead : ChainState :=
  { twoBlocks with
    mapBlockIndex := fun hash =>
      if hash = hashGenesisBlock then some genesisEntry
      else if hash = 5 then some (stored 5 (some hashGenesisBlock))
      else if hash = 6 then some (stored 6 (some 5))
      else if hash = 7 then some (stored 7 (some 6))
      else none
    pcoinsTip := ⟨fun _ => none, some hashGenesisBlock⟩ }

/-- The disk is full when block 5 is connected, but not when the blocks up to 7 are. -/
def diskFullOnce : List BlockFinder.Call :=
  [.setBestChain { sound with fDiskSpace := false } 5, .setBestChain sound 7, .findBlockByHeight 0]

theorem threeAhead_index {hash : UInt256} {entry : CBlockIndex} (known : threeAhead.mapBlockIndex hash = some entry) :
    (hash = hashGenesisBlock ∧ entry = genesisEntry) ∨ (hash = 5 ∧ entry = stored 5 (some hashGenesisBlock)) ∨
      (hash = 6 ∧ entry = stored 6 (some 5)) ∨ (hash = 7 ∧ entry = stored 7 (some 6)) := by
  simp only [threeAhead] at known
  split at known
  · exact Or.inl ⟨‹_›, (Option.some.inj known).symm⟩
  split at known
  · exact Or.inr (Or.inl ⟨‹_›, (Option.some.inj known).symm⟩)
  split at known
  · exact Or.inr (Or.inr (Or.inl ⟨‹_›, (Option.some.inj known).symm⟩))
  split at known
  · exact Or.inr (Or.inr (Or.inr ⟨‹_›, (Option.some.inj known).symm⟩))
  · cases known

theorem threeAhead_loadable : BlockFinder.Loadable threeAhead := by
  refine ⟨⟨?_, ?_, ?_⟩, ?_, ?_, ?_⟩
  · intro hash entry known
    rcases threeAhead_index known with ⟨rfl, rfl⟩ | ⟨rfl, rfl⟩ | ⟨rfl, rfl⟩ | ⟨rfl, rfl⟩ <;> decide
  · intro hash entry pprev known up
    rcases threeAhead_index known with ⟨rfl, rfl⟩ | ⟨rfl, rfl⟩ | ⟨rfl, rfl⟩ | ⟨rfl, rfl⟩
    · cases up
    · cases up
      exact ⟨genesisEntry, rfl, by decide⟩
    · cases up
      exact ⟨stored 5 (some hashGenesisBlock), rfl, by decide⟩
    · cases up
      exact ⟨stored 6 (some 5), rfl, by decide⟩
  · intro hash entry known
    rcases threeAhead_index known with ⟨rfl, rfl⟩ | ⟨rfl, rfl⟩ | ⟨rfl, rfl⟩ | ⟨rfl, rfl⟩ <;> decide
  · intro hash entry known root
    rcases threeAhead_index known with ⟨rfl, rfl⟩ | ⟨rfl, rfl⟩ | ⟨rfl, rfl⟩ | ⟨rfl, rfl⟩
    · exact ⟨rfl, by decide⟩
    · cases root
    · cases root
    · cases root
  · intro hash entry known
    rcases threeAhead_index known with ⟨rfl, rfl⟩ | ⟨rfl, rfl⟩ | ⟨rfl, rfl⟩ | ⟨rfl, rfl⟩ <;> rfl
  · intro best top
    cases top
    rfl

end Sample

namespace BlockFinder

open Sample

/-- After a failed write the link from the genesis block to the new branch is missing; and before the first
block a height is searched without a tip. -/
theorem findBlockByHeight_diskFull :
    Loadable threeAhead ∧
      Sat ((load threeAhead).bind fun start => start.run idle diskFullOnce)
        (fun s => s.chain.nBestHeight = 3 ∧ (s.findBlockByHeight 1).isOk = false) (fun _ => False) ∧
      Sat (load { threeAhead with pcoinsTip := ⟨fun _ => none, none⟩ })
        (fun s => 0 ≤ s.chain.nBestHeight ∧ (s.findBlockByHeight 0).isOk = false) (fun _ => False) := by
  apply And.intro threeAhead_loadable
  decide +kernel

theorem threeAhead_connects :
    Sat ((load threeAhead).bind fun start => start.run idle [.setBestChain sound 7, .findBlockByHeight 0])
      (fun s => s.chain.pindexBest ≠ none ∧ 1 ≤ s.chain.nBestHeight) (fun _ => False) := by
  decide +kernel

theorem run_findBlockByHeight_sample : ∃ start s hash, load threeAhead = .ok start ∧
    start.run idle [.setBestChain sound 7, .findBlockByHeight 0] = .ok s ∧
    s.findBlockByHeight 1 = .ok ({ s with pblockindexFBBHLast := some hash }, hash) ∧ s.AtHeight 1 hash := by
  have returns : ((load threeAhead).bind fun start =>
      start.run idle [.setBestChain sound 7, .findBlockByHeight 0]).isOk = true := by decide +kernel
  obtain ⟨s, both⟩ := ok_of_isOk returns
  have reached : s.chain.pindexBest ≠ none ∧ 1 ≤ s.chain.nBestHeight :=
    threeAhead_connects.of_ok both
  obtain ⟨start, loaded, returned⟩ := bind_eq_ok.mp both
  have writes : start.AlwaysWrites idle [.setBestChain sound 7, .findBlockByHeight 0] :=
    ⟨fun _ _ _ => ⟨rfl, rfl⟩, fun _ _ => ⟨trivial, fun _ _ => trivial⟩⟩
  obtain ⟨hash, found, place⟩ := run_findBlockByHeight threeAhead_loadable loaded writes returned reached.1
    (by decide) reached.2
  exact ⟨start, s, hash, loaded, returned, found, place⟩

end BlockFinder

end BitCrystal
