import BitCrystal.ActiveChain

namespace BitCrystal

open Data

/-! # The choice of the best chain -/

namespace ChainState

/-- CBlockIndexWorkComparator: of entries with the same work the one with the larger
hash comes first. -/
def workBefore (s : ChainState) (pa pb : UInt256) : Bool :=
  if s.chainWork pb < s.chainWork pa then false
  else if s.chainWork pa < s.chainWork pb then true
  else if pa < pb then false
  else decide (pb < pa)

/-- `setBlockIndexValid.rbegin()` -/
def lastValid (s : ChainState) : Option UInt256 :=
  s.setBlockIndexValid.foldl (fun last hash =>
    match last with
    | none => some hash
    | some best => if s.workBefore best hash then some hash else some best) none

/-- The walk of ConnectBestBlock from `pindexNewBest` down: to an entry that has failed,
or to the active chain with the entries to attach. -/
def checkAncestry (s : ChainState) : Nat → UInt256 → List UInt256 → Except Failure (UInt256 ⊕ List UInt256)
  | 0, _, _ => .error .endless
  | room + 1, pindexTest, vAttach => do
      let index ← expect (s.mapBlockIndex pindexTest) (.undefined "ConnectBestBlock")
      if index.nStatus &&& BLOCK_FAILED_MASK ≠ 0 then return .inl pindexTest
      else
        -- these are collected from the fork up
        let vAttach := if s.pindexBest.all (fun best => s.chainWork best < index.nChainWork) then
          pindexTest :: vAttach else vAttach
        match index.pprev with
        | none => return .inr vAttach
        | some pprev => if index.pnext ≠ none then return .inr vAttach else checkAncestry s room pprev vAttach

/-- A descendant of a failed entry. -/
def markFailedChild (s : ChainState) (pindexFailed : UInt256) : ChainState :=
  (s.setIndex pindexFailed fun index => { index with nStatus := index.nStatus ||| BLOCK_FAILED_CHILD }).eraseValid
    pindexFailed

end ChainState

/-- The handler of ConnectBestBlock for exceptions. -/
def Outcome.caught (outcome : Outcome) : Outcome :=
  match outcome.result with
  | .error (.exception what) => ⟨outcome.state, .error (.abort ("System error: " ++ what))⟩
  | _ => outcome

theorem Outcome.caught_state (outcome : Outcome) : outcome.caught.state = outcome.state := by
  unfold Outcome.caught
  split <;> rfl

theorem BlockMap.SameShape.none {map after : BlockMap} (same : map.SameShape after) {hash : UInt256}
    (missing : map hash = Option.none) : after hash = Option.none := by
  have both := same hash
  rw [missing] at both
  simpa using both

namespace ChainState

section

variable [Hashing] [PubKeys] [ScriptMachine]

/-- SetBestChain for every entry of `vAttach`. -/
def attach (reorganise : ChainState → Outcome) (env : UInt256 → Surroundings) : List UInt256 → ChainState → Outcome
  | [], s => ⟨s, .ok ()⟩
  | pindexSwitch :: vAttach, s =>
      (s.setBestChain reorganise (env pindexSwitch) pindexSwitch).caught.andThen (attach reorganise env vAttach)

/-- ConnectBestBlock in so many turns of its outer loop, those of the calls from
InvalidBlockFound included; `env` depends on the turns that are left. -/
def connectBestBlock (env : Nat → UInt256 → Surroundings) : Nat → ChainState → Outcome
  | 0, s => ⟨s, .error .endless⟩
  | room + 1, s =>
      match s.lastValid with
      | none => ⟨s, .ok ()⟩
      | some pindexNewBest =>
          if s.pindexBest = some pindexNewBest ∨
              s.pindexBest.any (fun best => s.chainWork pindexNewBest = s.chainWork best) then ⟨s, .ok ()⟩
          else
            match s.checkAncestry (heightRoom s.mapBlockIndex pindexNewBest) pindexNewBest [] with
            | .error reason => ⟨s, .error reason⟩
            | .ok (.inr vAttach) => s.attach (connectBestBlock env room) (env room) vAttach
            | .ok (.inl pindexTest) =>
                match entriesDown s.mapBlockIndex (some pindexTest)
                    (heightRoom s.mapBlockIndex pindexNewBest + 1) (some pindexNewBest) with
                | .error reason => ⟨s, .error reason⟩
                | .ok failed =>
                    ((failed.foldl markFailedChild s).invalidChainFound pindexNewBest).andThen
                      (connectBestBlock env room)

end

/-! ## The entries of the tree stay -/

variable {reorganise : ChainState → Outcome}

/-- Whatever it returns, no entry comes or goes or changes but for its status, its undo
position and its successor. -/
def KeepsShape (call : ChainState → Outcome) : Prop :=
  ∀ s : ChainState, BlockMap.SameShape s.mapBlockIndex (call s).state.mapBlockIndex

theorem andThen_shape {s : ChainState} {outcome : Outcome} {next : ChainState → Outcome}
    (first : BlockMap.SameShape s.mapBlockIndex outcome.state.mapBlockIndex)
    (second : BlockMap.SameShape outcome.state.mapBlockIndex (next outcome.state).state.mapBlockIndex) :
    BlockMap.SameShape s.mapBlockIndex (outcome.andThen next).state.mapBlockIndex := by
  unfold Outcome.andThen
  split
  · exact first
  · exact first.trans second

theorem invalidChainFound_shape (pindexNew : UInt256) : KeepsShape fun s => s.invalidChainFound pindexNew :=
  fun s => (invalidChainFound_files s pindexNew).tree.shape

theorem invalidBlockFound_shape (keeps : KeepsShape reorganise) (hash : UInt256) :
    KeepsShape fun s => s.invalidBlockFound reorganise hash := by
  intro s
  refine andThen_shape ((markInvalid_files s hash).trans (invalidChainFound_files _ hash)).tree.shape ?_
  dsimp only
  split
  · split
    · split
      · exact keeps _
      · exact keeps _
    · exact keeps _
  · exact .refl _

theorem connectFailed_shape (keeps : KeepsShape reorganise) (pindexNew hash : UInt256) (reason : Failure) :
    KeepsShape fun s => s.connectFailed reorganise pindexNew hash reason := by
  intro s
  dsimp only [connectFailed]
  split
  · refine andThen_shape (andThen_shape (invalidChainFound_shape pindexNew s) ?_) (.refl _)
    exact invalidBlockFound_shape keeps hash _
  · exact .refl _

theorem markFailedChildren_shape (failed : List UInt256) (s : ChainState) :
    BlockMap.SameShape s.mapBlockIndex (failed.foldl markFailedChild s).mapBlockIndex := by
  induction failed generalizing s with
  | nil => exact .refl _
  | cons pindexFailed failed ih =>
      have marked : BlockMap.SameShape s.mapBlockIndex (s.markFailedChild pindexFailed).mapBlockIndex :=
        .update pindexFailed fun _ => rfl
      exact marked.trans (ih _)

section

variable [Hashing] [PubKeys] [ScriptMachine] {env : Surroundings}

omit [PubKeys] in
theorem moveTip_shape (pindexNew : UInt256) (switch : Switch) (vResurrect vDelete : List CTransaction) :
    KeepsShape fun s => s.moveTip env pindexNew switch vResurrect vDelete := by
  intro s
  dsimp only [moveTip]
  split
  · exact BlockMap.relink_shape switch
  · exact BlockMap.relink_shape switch
  · exact BlockMap.relink_shape switch

theorem commit_shape (pindexNew : UInt256) (switch : Switch) (view : CoinsView)
    (vResurrect vDelete : List CTransaction) :
    KeepsShape fun s => s.commit env pindexNew switch view vResurrect vDelete := by
  intro s
  dsimp only [commit]
  split
  · split
    · exact .refl _
    · split
      · exact .refl _
      · exact moveTip_shape pindexNew switch vResurrect vDelete { s with pcoinsTip := view.reload }
  · exact moveTip_shape pindexNew switch vResurrect vDelete { s with pcoinsTip := view }

theorem setBestChain_shape (keeps : KeepsShape reorganise) (pindexNew : UInt256) :
    KeepsShape fun s => s.setBestChain reorganise env pindexNew := by
  intro s
  dsimp only [setBestChain]
  split
  · exact .refl _
  · rename_i switch u _
    have writes : BlockMap.SameShape s.mapBlockIndex (s.wind env switch u).1.mapBlockIndex :=
      BlockMap.SameTree.shape (connectTips_writes switch.vConnect _)
    split
    · rename_i w reason hash wound
      rw [wound] at writes
      exact writes.trans (connectFailed_shape keeps pindexNew hash reason (s.written w))
    · rename_i w wound
      rw [wound] at writes
      exact writes.trans (commit_shape pindexNew switch w.view u.vResurrect w.vDelete (s.written w))

theorem attach_shape (keeps : KeepsShape reorganise) (env : UInt256 → Surroundings) (vAttach : List UInt256) :
    KeepsShape fun s => s.attach reorganise env vAttach := by
  induction vAttach with
  | nil => exact fun s => .refl _
  | cons pindexSwitch vAttach ih =>
      intro s
      refine andThen_shape ?_ (ih _)
      rw [Outcome.caught_state]
      exact setBestChain_shape keeps pindexSwitch s

theorem connectBestBlock_shape (env : Nat → UInt256 → Surroundings) (room : Nat) :
    KeepsShape (connectBestBlock env room) := by
  induction room with
  | zero => exact fun s => .refl _
  | succ room ih =>
      intro s
      unfold connectBestBlock
      split
      · exact .refl _
      · split
        · exact .refl _
        · split
          · exact .refl _
          · exact attach_shape ih _ _ s
          · split
            · exact .refl _
            · rename_i failed _
              refine andThen_shape ?_ (ih _)
              exact (markFailedChildren_shape failed s).trans (invalidChainFound_shape _ _)

end

end ChainState

end BitCrystal
