import BitCrystal.Disconnect
import BitCrystal.ForkSearch

namespace BitCrystal

open Data

/-! # What a failed SetBestChain leaves behind -/

def Winding.Writes (w after : Winding) : Prop :=
  BlockMap.SameTree w.mapBlockIndex after.mapBlockIndex

theorem Winding.Writes.trans {w between after : Winding} (first : w.Writes between)
    (second : between.Writes after) : w.Writes after :=
  BlockMap.Same.trans first second

theorem Winding.Writes.andThen {w : Winding} {step : Step Winding} {next : Winding → Step Winding}
    (first : w.Writes step.state) (second : ∀ state : Winding, state.Writes (next state).state) :
    w.Writes (step.andThen next).state := by
  unfold Step.andThen
  split
  · exact first
  · exact first.trans (second _)

theorem Step.andThen_failure_none {σ : Type} {step : Step σ} {next : σ → Step σ}
    (ended : (step.andThen next).failure = none) :
    step.failure = none ∧ step.andThen next = next step.state := by
  unfold Step.andThen at ended ⊢
  cases failed : step.failure with
  | some reason =>
      rw [failed] at ended
      simp only [failed] at ended
      contradiction
  | none => exact ⟨rfl, rfl⟩

section

variable [Hashing] [PubKeys]

/-! ## Disconnecting -/

theorem CBlock.disconnectBlock_best {block : CBlock} {pindex : CBlockIndex}
    {undoFiles : CDiskBlockPos → Bytes} {view after : CoinsView} {fClean : Bool}
    (run : block.disconnectBlock pindex undoFiles view = .ok (after, fClean)) :
    after.best = pindex.pprev := by
  simp only [disconnectBlock, bind_eq_ok, pure_eq_ok] at run
  obtain ⟨_, _, _, _, _, _, _, _, _, _, result, _, same⟩ := run
  cases same
  rfl

theorem disconnectTip_best {s : ChainState} {u next : Unwinding} {hash : UInt256} {index : CBlockIndex}
    (known : s.mapBlockIndex hash = some index) (run : disconnectTip s u hash = .ok next) :
    next.view.best = index.pprev := by
  simp only [disconnectTip, bind_eq_ok, expect_eq_ok, pure_eq_ok] at run
  obtain ⟨pindex, found, block, _, ⟨view, fClean⟩, undone, _, _, rfl⟩ := run
  rw [known] at found
  cases found
  exact CBlock.disconnectBlock_best undone

theorem disconnectTips_best {s : ChainState} {hashes : List UInt256} {start stop : Option UInt256}
    {u last : Unwinding} (path : PathDown s.mapBlockIndex start hashes stop) (best : u.view.best = start)
    (run : hashes.foldlM (disconnectTip s) u = .ok last) : last.view.best = stop := by
  induction hashes generalizing start u with
  | nil =>
      cases run
      exact best.trans path
  | cons hash rest ih =>
      obtain ⟨_, index, known, more⟩ := path
      obtain ⟨next, step, remaining⟩ := foldlM_cons_eq_ok.mp run
      exact ih more (disconnectTip_best known step) remaining

/-! ## Connecting -/

theorem writeUndo_writes (env : Surroundings) (hash : UInt256) (pindex : CBlockIndex)
    (blockundo : CBlockUndo) (w : Winding) : w.Writes (writeUndo env hash pindex blockundo w).state := by
  unfold writeUndo
  split
  · exact .refl _
  · split
    · exact .refl _
    · exact .refl _
    · split
      · exact .update hash fun _ => rfl
      · exact .refl _

theorem writeConnected_writes (env : Surroundings) (hash : UInt256) (pindex : CBlockIndex)
    (blockundo : CBlockUndo) (w : Winding) :
    w.Writes (writeConnected env hash pindex blockundo w).state := by
  apply Winding.Writes.andThen
  · split
    · apply Winding.Writes.andThen
      · exact writeUndo_writes env hash pindex blockundo w
      · intro state
        exact .update hash fun _ => rfl
    · exact .refl _
  · intro state
    split <;> exact .refl _

variable [ScriptMachine] {env : Surroundings} {blockFiles : CDiskBlockPos → Option CBlock}

theorem connectTip_writes (hash : UInt256) (w : Winding) :
    w.Writes (connectTip env blockFiles hash w).state := by
  unfold connectTip
  split
  · exact .refl _
  · split
    · exact .refl _
    · split
      · exact .refl _
      · apply Winding.Writes.andThen
        · split
          · exact .refl _
          · exact writeConnected_writes env hash _ _ w
        · intro state
          exact .refl _

theorem connectTips_writes (hashes : List UInt256) (w : Winding) :
    w.Writes (connectTips env blockFiles hashes w).1 := by
  induction hashes generalizing w with
  | nil => exact .refl _
  | cons hash rest ih =>
      rw [connectTips]
      split
      · exact connectTip_writes hash w
      · exact (connectTip_writes hash w).trans (ih _)

theorem connectTip_best {hash : UInt256} {w : Winding} (tree : w.mapBlockIndex.Tree)
    (ended : (connectTip env blockFiles hash w).failure = none) :
    (connectTip env blockFiles hash w).state.view.best = some hash := by
  unfold connectTip at ended ⊢
  split at ended
  · contradiction
  · rename_i pindex known
    split at ended
    · contradiction
    · split at ended
      · contradiction
      · rename_i view blockundo connected
        have best : view.best = pindex.phashBlock := by
          rcases CBlock.connectBlock_cases connected with ⟨_, _, rfl⟩ | ⟨last, _, _, rfl⟩ <;> rfl
        rw [(Step.andThen_failure_none ended).2]
        exact best.trans (tree.owned hash pindex known)

theorem connectTips_best {hashes : List UInt256} {w last : Winding} (tree : w.mapBlockIndex.Tree)
    (run : connectTips env blockFiles hashes w = (last, none)) :
    last.view.best = hashes.getLast?.or w.view.best := by
  induction hashes generalizing w with
  | nil =>
      cases run
      rfl
  | cons hash rest ih =>
      rw [connectTips] at run
      split at run
      · cases run
      · rename_i ended
        rw [ih ((connectTip_writes hash w).shape.tree tree) run, connectTip_best tree ended, List.getLast?_cons]
        cases rest.getLast? <;> rfl

theorem connectTips_failed {hashes : List UInt256} {w last : Winding} {reason : Failure} {hash : UInt256}
    (run : connectTips env blockFiles hashes w = (last, some (reason, hash))) : hash ∈ hashes := by
  induction hashes generalizing w with
  | nil => cases run
  | cons head rest ih =>
      rw [connectTips] at run
      split at run
      · cases run
        exact List.mem_cons_self
      · exact List.mem_cons_of_mem head (ih run)

end

/-! ## The memory that SetBestChain works on -/

/-- The callers of SetBestChain go on with it: it returns false, or it throws what they catch. -/
def Failure.isHandled : Failure → Bool
  | .exception _ => true
  | reason => reason.returnsFalse

namespace ChainState

/-- The coins, the active chain and the memory pool are what they were. -/
structure SameMemory (s after : ChainState) : Prop where
  coins : after.pcoinsTip = s.pcoinsTip
  best : after.pindexBest = s.pindexBest
  hash : after.hashBestChain = s.hashBestChain
  height : after.nBestHeight = s.nBestHeight
  pool : after.mempool = s.mempool
  next : ∀ hash, (after.mapBlockIndex hash).map CBlockIndex.pnext =
    (s.mapBlockIndex hash).map CBlockIndex.pnext

theorem SameMemory.refl (s : ChainState) : SameMemory s s :=
  ⟨rfl, rfl, rfl, rfl, rfl, fun _ => rfl⟩

theorem SameMemory.trans {s between after : ChainState} (first : SameMemory s between)
    (second : SameMemory between after) : SameMemory s after :=
  ⟨second.coins.trans first.coins, second.best.trans first.best, second.hash.trans first.hash,
    second.height.trans first.height, second.pool.trans first.pool,
    fun hash => (second.next hash).trans (first.next hash)⟩

theorem SameMemory.of_tree {s after : ChainState} (coins : after.pcoinsTip = s.pcoinsTip)
    (best : after.pindexBest = s.pindexBest) (hash : after.hashBestChain = s.hashBestChain)
    (height : after.nBestHeight = s.nBestHeight) (pool : after.mempool = s.mempool)
    (tree : BlockMap.SameTree s.mapBlockIndex after.mapBlockIndex) : SameMemory s after :=
  ⟨coins, best, hash, height, pool, tree.field CBlockIndex.pnext fun _ => rfl⟩

theorem SameMemory.pnext {s after : ChainState} (same : SameMemory s after) (hash : UInt256) :
    (after.mapBlockIndex hash).bind CBlockIndex.pnext = (s.mapBlockIndex hash).bind CBlockIndex.pnext := by
  have both := same.next hash
  cases found : s.mapBlockIndex hash <;> cases also : after.mapBlockIndex hash <;> simp_all

theorem invalidChainFound_same (s : ChainState) (pindexNew : UInt256) :
    SameMemory s (s.invalidChainFound pindexNew).state := by
  unfold invalidChainFound
  split
  · exact .of_tree rfl rfl rfl rfl rfl (.refl _)
  · exact .refl s

theorem markInvalid_same (s : ChainState) (hash : UInt256) : SameMemory s (s.markInvalid hash) :=
  .of_tree rfl rfl rfl rfl rfl (.update hash fun _ => rfl)

theorem SameMemory.andThen {s : ChainState} {outcome : Outcome} {next : ChainState → Outcome}
    (first : SameMemory s outcome.state)
    (second : SameMemory s outcome.state → SameMemory outcome.state (next outcome.state).state) :
    SameMemory s (outcome.andThen next).state := by
  unfold Outcome.andThen
  split
  · exact first
  · exact first.trans (second first)

theorem invalidBlockFound_same {reorganise : ChainState → Outcome} {s : ChainState} {hash : UInt256}
    (leaf : (s.mapBlockIndex hash).bind CBlockIndex.pnext = none) :
    SameMemory s (invalidBlockFound reorganise s hash).state := by
  apply SameMemory.andThen
  · exact (markInvalid_same s hash).trans (invalidChainFound_same _ hash)
  · intro same
    rw [same.pnext, leaf]
    exact .refl _

theorem connectFailed_same {reorganise : ChainState → Outcome} {s : ChainState} {pindexNew hash : UInt256}
    {reason : Failure} (leaf : (s.mapBlockIndex hash).bind CBlockIndex.pnext = none) :
    SameMemory s (s.connectFailed reorganise pindexNew hash reason).state := by
  unfold connectFailed
  split
  · apply SameMemory.andThen
    · apply SameMemory.andThen (invalidChainFound_same s pindexNew)
      intro same
      exact invalidBlockFound_same ((same.pnext hash).trans leaf)
    · intro _
      exact .refl _
  · exact .refl s

section

variable [Hashing] [PubKeys] [ScriptMachine]

theorem written_same {env : Surroundings} (s : ChainState) {switch : Switch} {u : Unwinding} {w : Winding}
    {stop : Option (Failure × UInt256)} (run : s.wind env switch u = (w, stop)) :
    SameMemory s (s.written w) := by
  have writes : Winding.Writes _ (connectTips env s.blockFiles switch.vConnect _).1 :=
    connectTips_writes switch.vConnect
    ⟨u.view, [], s.mapBlockIndex, s.undoFiles⟩
  rw [show connectTips env s.blockFiles switch.vConnect _ = (w, stop) from run] at writes
  exact .of_tree rfl rfl rfl rfl rfl writes

end

/-- The tip of the coins is the tip of the active chain, and `pnext` links only
lead along it. -/
structure Consistent (s : ChainState) : Prop where
  tree : s.mapBlockIndex.Tree
  tip : s.pcoinsTip.best = s.pindexBest
  next : ∀ hash index, s.mapBlockIndex hash = some index → index.pnext ≠ none →
    ∃ best, s.pindexBest = some best ∧ Ancestor s.mapBlockIndex.parent hash best

theorem Consistent.leaf {s : ChainState} (consistent : s.Consistent) {pindexNew hash : UInt256}
    {switch : Switch} {pfork : Option UInt256}
    (plans : Plans s.mapBlockIndex s.pcoinsTip.best pindexNew switch pfork)
    (member : hash ∈ switch.vConnect) : (s.mapBlockIndex hash).bind CBlockIndex.pnext = none := by
  cases known : s.mapBlockIndex hash with
  | none => rfl
  | some index =>
      cases next : index.pnext with
      | none => exact next
      | some after =>
          obtain ⟨best, tip, active⟩ := consistent.next hash index known (by simp [next])
          obtain ⟨fork, rfl, highest⟩ := plans.fork best (consistent.tip.trans tip)
          have member' : hash ∈ switch.vConnect.reverse := List.mem_reverse.mpr member
          have common := highest hash active (plans.connect.ancestor rfl hash member')
          have low := common.height_le consistent.tree.graded
          have high := plans.connect.stop_lower consistent.tree hash member'
          omega

section

variable [Hashing] [PubKeys]

theorem unwind_plans {s : ChainState} (tree : s.mapBlockIndex.Tree) {pindexNew : UInt256} {switch : Switch}
    {u : Unwinding} (unwound : s.unwind pindexNew = .ok (switch, u)) :
    ∃ pfork, Plans s.mapBlockIndex s.pcoinsTip.best pindexNew switch pfork ∧ u.view.best = pfork := by
  simp only [unwind, bind_eq_ok, pure_eq_ok, Prod.mk.injEq] at unwound
  obtain ⟨plan, planned, unwinding, disconnected, rfl, rfl⟩ := unwound
  obtain ⟨pfork, plans⟩ := planSwitch_plans tree planned
  exact ⟨pfork, plans, disconnectTips_best plans.disconnect rfl disconnected⟩

end

/-! ## The verdict on SetBestChain -/

/-- SetBestChain has been atomic: when it returns false the memory is as before,
and whatever it returns the coins and the active chain have the same tip. -/
structure Atomic (s : ChainState) (outcome : Outcome) : Prop where
  unchanged : ∀ reason, outcome.result = .error reason → reason.returnsFalse = true →
    s.SameMemory outcome.state
  tip : (∀ reason, outcome.result = .error reason → reason.returnsFalse = true) →
    outcome.state.pcoinsTip.best = outcome.state.pindexBest

theorem Atomic.of_same {s : ChainState} {outcome : Outcome} (tip : s.pcoinsTip.best = s.pindexBest)
    (same : s.SameMemory outcome.state) : Atomic s outcome := by
  refine ⟨fun _ _ _ => same, fun _ => ?_⟩
  rw [same.coins, same.best]
  exact tip

/-- A computation that only fails when the program stops. -/
def Stops {α : Type} (computation : Except Failure α) : Prop :=
  Sat computation (fun _ => True) fun reason => reason.returnsFalse = false

/-- A computation that fails with nothing that the callers of SetBestChain go on with. -/
def Unhandled {α : Type} (computation : Except Failure α) : Prop :=
  Sat computation (fun _ => True) fun reason => reason.isHandled = false

theorem Unhandled.stops {α : Type} {computation : Except Failure α} (unhandled : Unhandled computation) :
    Stops computation := by
  refine unhandled.weaken_fault fun reason failed => ?_
  cases reason <;> first | rfl | contradiction

theorem expect_unhandled {α : Type} (value : Option α) (what : String) :
    Unhandled (expect value (Failure.undefined what)) :=
  Sat.weaken (Sat.expect rfl) fun _ _ => trivial

section

variable [Hashing]

theorem removeWithin_unhandled (depth : Nat) (tx : CTransaction) (fRecursive : Bool) (pool : CTxMemPool) :
    Unhandled (CTxMemPool.removeWithin depth tx fRecursive pool) := by
  induction depth generalizing tx fRecursive pool with
  | zero => rfl
  | succ depth ih =>
      unfold CTxMemPool.removeWithin
      apply Sat.ite
      · intro _
        refine Sat.bind (?_ : Sat _ (fun _ => True) _) ?_
        · apply Sat.ite
          · intro _
            apply Sat.foldlM (fun _ _ => True) _ _ _ trivial
            intro between i rest _
            unfold CTxMemPool.removeSpender
            split
            · exact trivial
            · exact Sat.bind (expect_unhandled _ _) fun spender _ => ih spender true between
          · intro _
            exact trivial
        · intro _ _
          exact trivial
      · intro _
        exact trivial

theorem removeConnected_unhandled (pool : CTxMemPool) (tx : CTransaction) :
    Unhandled (removeConnected pool tx) := by
  apply (removeWithin_unhandled _ tx false pool).bind
  intro pool _
  apply Sat.foldlM (fun _ _ => True) _ _ _ trivial
  intro between txin rest _
  unfold CTxMemPool.removeConflict
  split
  · exact trivial
  · apply Sat.bind (expect_unhandled _ _)
    intro txConflict _
    apply Sat.ite
    · intro _
      exact trivial
    · intro _
      exact removeWithin_unhandled _ txConflict true between

variable [ScriptMachine]

theorem resurrect_unhandled (context : AcceptContext) (pool : CTxMemPool) (tx : CTransaction) :
    Unhandled (resurrect context pool tx) := by
  unfold resurrect CTxMemPool.acceptToMemoryPool
  cases pool.accept context tx true false with
  | ok next => exact trivial
  | error reason => cases reason <;> first | exact trivial | rfl

theorem updateMempool_unhandled (context : AcceptContext) (pool : CTxMemPool)
    (vResurrect vDelete : List CTransaction) :
    Unhandled (updateMempool context pool vResurrect vDelete) := by
  refine Sat.bind (?_ : Sat _ (fun _ => True) _) ?_
  · apply Sat.foldlM (fun _ _ => True) _ _ _ trivial
    intro between tx rest _
    exact resurrect_unhandled context between tx
  · intro between _
    apply Sat.foldlM (fun _ _ => True) _ _ _ trivial
    intro between tx rest _
    exact removeConnected_unhandled between tx

theorem updateMempool_stops (context : AcceptContext) (pool : CTxMemPool)
    (vResurrect vDelete : List CTransaction) :
    Stops (updateMempool context pool vResurrect vDelete) :=
  (updateMempool_unhandled context pool vResurrect vDelete).stops

variable {env : Surroundings}

theorem moveTip_atomic {s t : ChainState} {pindexNew : UInt256} {switch : Switch}
    {vResurrect vDelete : List CTransaction} (best : t.pcoinsTip.best = some pindexNew) :
    Atomic s (t.moveTip env pindexNew switch vResurrect vDelete) := by
  have stops := updateMempool_stops ⟨env.settings, relink t.mapBlockIndex switch, t.nBestHeight,
    t.pcoinsTip, false⟩ t.mempool vResurrect vDelete
  unfold moveTip
  dsimp only
  split
  · exact ⟨fun reason failed => by cases failed; simp [Failure.returnsFalse],
      fun returns => absurd (returns _ rfl) (by simp [Failure.returnsFalse])⟩
  · rename_i _ reason _ failed
    have thrown := stops.of_error failed
    refine ⟨fun other same returns => ?_, fun returns => ?_⟩
    · cases same
      rw [thrown] at returns
      contradiction
    · have returned := returns reason rfl
      rw [thrown] at returned
      contradiction
  · exact ⟨fun reason failed => by contradiction, fun _ => best⟩

variable [PubKeys]

/-- Every block of the new branch can be disconnected or connected in the scratch view. -/
def Connects (env : Surroundings) (s : ChainState) (pindexNew : UInt256) : Prop :=
  ∃ switch u w, s.unwind pindexNew = .ok (switch, u) ∧ s.wind env switch u = (w, none)

theorem wind_best {s : ChainState} (tree : s.mapBlockIndex.Tree) {pindexNew : UInt256} {switch : Switch}
    {u : Unwinding} {w : Winding} (unwound : s.unwind pindexNew = .ok (switch, u))
    (wound : s.wind env switch u = (w, none)) : w.view.best = some pindexNew := by
  obtain ⟨pfork, plans, fork⟩ := unwind_plans tree unwound
  have best := connectTips_best (w := ⟨u.view, [], s.mapBlockIndex, s.undoFiles⟩) tree wound
  have connect := plans.connect
  rw [best, fork]
  cases reversed : switch.vConnect.reverse with
  | nil =>
      rw [reversed] at connect
      rw [List.reverse_eq_nil_iff.mp reversed]
      exact connect.symm
  | cons last rest =>
      rw [reversed] at connect
      rw [← List.head?_reverse, reversed]
      exact connect.1.symm

theorem wind_same {s : ChainState} (tree : s.mapBlockIndex.Tree) {pindexNew : UInt256} {switch : Switch}
    {u : Unwinding} {w : Winding} (tip : s.pcoinsTip.best = some pindexNew)
    (unwound : s.unwind pindexNew = .ok (switch, u)) (wound : s.wind env switch u = (w, none)) :
    w.view = s.pcoinsTip := by
  obtain ⟨pfork, plans, _⟩ := unwind_plans tree unwound
  obtain ⟨disconnect, connect⟩ := plans.same tip
  simp only [unwind, bind_eq_ok, pure_eq_ok, Prod.mk.injEq] at unwound
  obtain ⟨plan, _, unwinding, disconnected, rfl, rfl⟩ := unwound
  rw [disconnect] at disconnected
  cases disconnected
  rw [wind, connect] at wound
  cases wound
  rfl

/-- SetBestChain is atomic exactly when the coin database is written, if a new
tip has been connected and the database has to be written. -/
theorem setBestChain_atomic_iff {reorganise : ChainState → Outcome} {s : ChainState}
    (consistent : s.Consistent) (pindexNew : UInt256) :
    Atomic s (s.setBestChain reorganise env pindexNew) ↔
      (s.Connects env pindexNew → s.pindexBest ≠ some pindexNew → env.writesCoins = true →
        env.fDiskSpace = true ∧ env.fCoinsWritten = true) := by
  cases unwound : s.unwind pindexNew with
  | error reason =>
      have out : s.setBestChain reorganise env pindexNew = ⟨s, .error reason⟩ := by
        simp only [setBestChain, unwound]
      rw [out]
      refine iff_of_true (.of_same consistent.tip (.refl s)) ?_
      rintro ⟨switch, u, w, connects, _⟩
      rw [unwound] at connects
      contradiction
  | ok result =>
      obtain ⟨switch, u⟩ := result
      cases wound : s.wind env switch u with
      | mk w stop =>
          have kept := written_same s wound
          cases stop with
          | some failure =>
              obtain ⟨reason, hash⟩ := failure
              have out : s.setBestChain reorganise env pindexNew =
                  (s.written w).connectFailed reorganise pindexNew hash reason := by
                simp only [setBestChain, unwound, wound]
              obtain ⟨pfork, plans, _⟩ := unwind_plans consistent.tree unwound
              have leaf := consistent.leaf plans (connectTips_failed wound)
              rw [out]
              refine iff_of_true (.of_same consistent.tip ?_) ?_
              · exact kept.trans (connectFailed_same ((kept.pnext hash).trans leaf))
              · rintro ⟨_, _, _, connects, wound'⟩
                rw [unwound] at connects
                cases connects
                rw [wound] at wound'
                cases wound'
          | none =>
              have out : s.setBestChain reorganise env pindexNew =
                  (s.written w).commit env pindexNew switch w.view u.vResurrect w.vDelete := by
                simp only [setBestChain, unwound, wound]
              have best := wind_best consistent.tree unwound wound
              have connects : s.Connects env pindexNew := ⟨switch, u, w, unwound, wound⟩
              -- a write that fails leaves the scratch view in pcoinsTip
              have failed : ∀ what, Atomic s ⟨{ s.written w with pcoinsTip := w.view }, .error (.abort what)⟩ ↔
                  s.pindexBest = some pindexNew := by
                intro what
                constructor
                · intro atomic
                  have coins := (atomic.unchanged _ rfl rfl).coins
                  rw [← consistent.tip, ← coins]
                  exact best
                · intro same
                  have view := wind_same consistent.tree (consistent.tip.trans same) unwound wound
                  exact .of_same consistent.tip ⟨view, kept.best, kept.hash, kept.height, kept.pool, kept.next⟩
              rw [out, commit]
              cases writes : env.writesCoins with
              | false => exact iff_of_true (moveTip_atomic best) (by simp)
              | true =>
                  cases space : env.fDiskSpace with
                  | false =>
                      rw [if_pos rfl, if_pos (by simp), failed]
                      simp [connects]
                  | true =>
                      cases coins : env.fCoinsWritten with
                      | false =>
                          rw [if_pos rfl, if_neg (by simp), if_pos (by simp), failed]
                          simp [connects]
                      | true => exact iff_of_true (moveTip_atomic best) (by simp)

end

end ChainState

/-! ## Examples -/

namespace Sample

/-- The index entry of a stored block; its position on the disk is its nonce. -/
def stored (nonce : UInt32) (pprev : Option UInt256) : CBlockIndex :=
  { index nonce with pprev, nDataPos := nonce, nStatus := BLOCK_VALID_TRANSACTIONS ||| BLOCK_HAVE_DATA }

/-- A tree of two blocks, the second of which is not connected yet. -/
def twoBlocks : ChainState where
  mapBlockIndex hash :=
    if hash = 5 then some (stored 5 none) else if hash = 6 then some (stored 6 (some 5)) else none
  setBlockIndexValid := [5, 6]
  pcoinsTip := ⟨fun _ => none, some 5⟩
  pindexBest := some 5
  hashBestChain := 5
  nBestHeight := 1
  nBestChainWork := 0
  nBestInvalidWork := 0
  mempool := .empty
  blockFiles pos := some (block pos.nPos [coinbase])
  undoFiles _ := []

/-- Everything that is written to the disk succeeds. -/
def sound : Surroundings where
  settings := settings
  fIsInitialDownload := false
  fCacheFull := false
  fDiskSpace := true
  fCoinsWritten := true
  findUndoPos _ := some 0
  fUndoWritten _ := true
  fIndexWritten _ := true
  fTxIndexWritten _ := true

def idle (s : ChainState) : Outcome := ⟨s, .ok ()⟩

theorem twoBlocks_index {hash : UInt256} {index : CBlockIndex}
    (known : twoBlocks.mapBlockIndex hash = some index) :
    (hash = 5 ∧ index = stored 5 none) ∨ (hash = 6 ∧ index = stored 6 (some 5)) := by
  simp only [twoBlocks] at known
  split at known
  · rename_i same
    exact Or.inl ⟨same, (Option.some.inj known).symm⟩
  · split at known
    · rename_i same
      exact Or.inr ⟨same, (Option.some.inj known).symm⟩
    · contradiction

theorem twoBlocks_consistent : twoBlocks.Consistent := by
  refine ⟨⟨?_, ?_, ?_⟩, rfl, ?_⟩
  · intro hash index known
    rcases twoBlocks_index known with ⟨rfl, rfl⟩ | ⟨rfl, rfl⟩ <;> decide
  · intro hash index pprev known up
    rcases twoBlocks_index known with ⟨rfl, rfl⟩ | ⟨rfl, rfl⟩
    · contradiction
    · cases up
      exact ⟨stored 5 none, rfl, by decide⟩
  · intro hash index known
    rcases twoBlocks_index known with ⟨rfl, rfl⟩ | ⟨rfl, rfl⟩ <;> decide
  · intro hash index known next
    rcases twoBlocks_index known with ⟨rfl, rfl⟩ | ⟨rfl, rfl⟩ <;> exact absurd rfl next

end Sample

namespace ChainState

open Sample

theorem setBestChain_atomic_sample :
    (twoBlocks.setBestChain idle sound 6).result.isOk = true ∧
      twoBlocks.Atomic (twoBlocks.setBestChain idle sound 6) :=
  ⟨by decide +kernel, (setBestChain_atomic_iff twoBlocks_consistent 6).mpr fun _ _ _ => ⟨rfl, rfl⟩⟩

theorem diskFull_fails : Sat (twoBlocks.setBestChain idle { sound with fDiskSpace := false } 6).result
    (fun _ => False) fun reason => reason.returnsFalse = true := by decide +kernel

/-- With the disk full, SetBestChain returns false and the coins have a tip that
is not the tip of the active chain. -/
theorem setBestChain_diskFull :
    twoBlocks.Consistent ∧
      (twoBlocks.setBestChain idle { sound with fDiskSpace := false } 6).result.isOk = false ∧
      ¬ twoBlocks.Atomic (twoBlocks.setBestChain idle { sound with fDiskSpace := false } 6) := by
  refine ⟨twoBlocks_consistent, by decide +kernel, fun atomic => ?_⟩
  have full : (twoBlocks.setBestChain idle { sound with fDiskSpace := false } 6).state.pcoinsTip.best =
      some 6 := by decide +kernel
  cases failed : (twoBlocks.setBestChain idle { sound with fDiskSpace := false } 6).result with
  | ok done =>
      exact (diskFull_fails.of_ok failed).elim
  | error reason =>
      rw [(atomic.unchanged reason failed (diskFull_fails.of_error failed)).coins] at full
      exact absurd full (by decide)

end ChainState

end BitCrystal
