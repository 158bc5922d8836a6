import BitCrystal.Atomicity

namespace BitCrystal

open Data

/-! # The links of the active chain -/

namespace BlockMap

/-- Every `pnext` leads to a child on the way to the tip. -/
def Linked (map : BlockMap) (tip : Option UInt256) : Prop :=
  ∀ hash index child, map hash = some index → index.pnext = some child →
    map.parent child = some hash ∧ ∃ best, tip = some best ∧ Ancestor map.parent child best

variable {map : BlockMap}

theorem update_same (hash : UInt256) (change : CBlockIndex → CBlockIndex) :
    map.update hash change hash = (map hash).map change := by
  simp [update]

theorem update_other {hash other : UInt256} (different : other ≠ hash) (change : CBlockIndex → CBlockIndex) :
    map.update hash change other = map other := by
  simp [update, different]

/-- One turn of the loops of SetBestChain over `pnext`. -/
def setNext (links : BlockMap) (above : Option UInt256) (pnext : Option UInt256) : BlockMap :=
  match above with
  | some pprev => links.update pprev fun index => { index with pnext }
  | none => links

theorem setNext_shape (above pnext : Option UInt256) : SameShape map (map.setNext above pnext) := by
  cases above with
  | none => exact .refl map
  | some pprev => exact .update pprev fun _ => rfl

/-- An entry after one of the loops: the links it had, or one that the loop has set. -/
theorem foldl_setNext {above pnext : UInt256 → Option UInt256} {hashes : List UInt256} {hash : UInt256}
    {index : CBlockIndex}
    (known : hashes.foldl (fun links head => links.setNext (above head) (pnext head)) map hash = some index) :
    (∃ head ∈ hashes, above head = some hash ∧ index.pnext = pnext head) ∨
      ((∀ head ∈ hashes, above head ≠ some hash) ∧ map hash = some index) := by
  induction hashes generalizing map with
  | nil => exact Or.inr ⟨by simp, known⟩
  | cons head rest ih =>
      rw [List.foldl_cons] at known
      cases ih known with
      | inl set =>
          obtain ⟨later, member, up, same⟩ := set
          exact Or.inl ⟨later, List.mem_cons_of_mem head member, up, same⟩
      | inr unset =>
          obtain ⟨others, found⟩ := unset
          by_cases up : above head = some hash
          · simp only [setNext, up, update_same, Option.map_eq_some_iff] at found
            obtain ⟨before, _, rfl⟩ := found
            exact Or.inl ⟨head, List.mem_cons_self, up, rfl⟩
          · refine Or.inr ⟨fun other member => ?_, ?_⟩
            · rcases List.mem_cons.mp member with rfl | later
              · exact up
              · exact others other later
            · cases named : above head with
              | none => simpa [setNext, named] using found
              | some pprev =>
                  have different : hash ≠ pprev := by
                    rintro rfl
                    exact up named
                  simpa [setNext, named, update_other different] using found

theorem foldl_setNext_shape (above pnext : UInt256 → Option UInt256) (hashes : List UInt256) :
    SameShape map (hashes.foldl (fun links head => links.setNext (above head) (pnext head)) map) := by
  induction hashes generalizing map with
  | nil => exact .refl map
  | cons head rest ih => exact (setNext_shape _ _).trans ih

theorem relink_eq (switch : Switch) :
    relink map switch = switch.vConnect.foldl (fun links head => links.setNext (map.parent head) (some head))
      (switch.vDisconnect.foldl (fun links head => links.setNext (map.parent head) none) map) :=
  rfl

theorem relink_shape (switch : Switch) : SameShape map (relink map switch) := by
  rw [relink_eq]
  exact (foldl_setNext_shape _ _ _).trans (foldl_setNext_shape _ _ _)

end BlockMap

open BlockMap

theorem PathDown.stop_ancestor {map : BlockMap} {start : Option UInt256} {stop top : UInt256}
    {hashes : List UInt256} (path : PathDown map start hashes (some stop)) (first : start = some top) :
    Ancestor map.parent stop top := by
  induction hashes generalizing start top with
  | nil =>
      rw [first] at path
      cases path
      exact .refl _
  | cons head rest ih =>
      obtain ⟨same, index, known, more⟩ := path
      rw [first] at same
      cases same
      cases up : index.pprev with
      | none =>
          rw [up] at more
          cases rest with
          | nil => contradiction
          | cons second others => exact absurd more.1 (by simp)
      | some pprev => exact (ih more up).trans (.of_parent ((parent_of known).trans up))

theorem PathDown.shape {map other : BlockMap} (same : SameShape map other) {start stop : Option UInt256}
    {hashes : List UInt256} (path : PathDown map start hashes stop) : PathDown other start hashes stop := by
  induction hashes generalizing start with
  | nil => exact path
  | cons head rest ih =>
      obtain ⟨first, index, known, more⟩ := path
      obtain ⟨after, found, equal⟩ := same.symm.entry known
      refine ⟨first, after, found, ih ?_⟩
      rw [← (CBlockIndex.shape_fields equal).2.1]
      exact more

theorem Plans.shape {map other : BlockMap} (same : SameShape map other) {tip : Option UInt256}
    {pindexNew : UInt256} {switch : Switch} {pfork : Option UInt256}
    (plans : Plans map tip pindexNew switch pfork) : Plans other tip pindexNew switch pfork := by
  refine ⟨plans.disconnect.shape same, plans.connect.shape same, ?_, plans.same⟩
  rw [same.parent_eq]
  exact plans.fork

theorem Plans.relink {map : BlockMap} {tip : Option UInt256} {pindexNew : UInt256} {switch : Switch}
    {pfork : Option UInt256} (linked : map.Linked tip) (plans : Plans map tip pindexNew switch pfork) :
    (BitCrystal.relink map switch).Linked (some pindexNew) := by
  intro hash index child known next
  rw [(relink_shape switch).parent_eq]
  rw [relink_eq] at known
  cases foldl_setNext known with
  | inl connected =>
      obtain ⟨head, member, up, same⟩ := connected
      rw [next] at same
      cases same
      refine ⟨up, pindexNew, rfl, ?_⟩
      exact plans.connect.ancestor rfl _ (List.mem_reverse.mpr member)
  | inr before =>
      obtain ⟨-, known⟩ := before
      cases foldl_setNext known with
      | inl disconnected =>
          obtain ⟨head, member, up, same⟩ := disconnected
          rw [next] at same
          contradiction
      | inr before =>
          obtain ⟨stays, known⟩ := before
          obtain ⟨up, best, rfl, above⟩ := linked hash index child known next
          refine ⟨up, pindexNew, rfl, ?_⟩
          cases plans.disconnect.mem_or_ancestor rfl above with
          | inl removed => exact absurd up (stays child removed)
          | inr below =>
              obtain ⟨fork, rfl, below⟩ := below
              exact below.trans (plans.connect.stop_ancestor rfl)

/-! ## What SetBestChain returns with -/

namespace ChainState

/-- The files and the tree are what they were, but for the status of entries. -/
structure SameFiles (s after : ChainState) : Prop where
  blocks : after.blockFiles = s.blockFiles
  undos : after.undoFiles = s.undoFiles
  tree : SameTree s.mapBlockIndex after.mapBlockIndex

theorem SameFiles.refl (s : ChainState) : SameFiles s s :=
  ⟨rfl, rfl, .refl _⟩

theorem SameFiles.trans {s between after : ChainState} (first : SameFiles s between)
    (second : SameFiles between after) : SameFiles s after :=
  ⟨second.blocks.trans first.blocks, second.undos.trans first.undos, first.tree.trans second.tree⟩

theorem SameFiles.andThen {s : ChainState} {outcome : Outcome} {next : ChainState → Outcome}
    (first : SameFiles s outcome.state) (second : SameFiles outcome.state (next outcome.state).state) :
    SameFiles s (outcome.andThen next).state := by
  unfold Outcome.andThen
  split
  · exact first
  · exact first.trans second

theorem invalidChainFound_files (s : ChainState) (pindexNew : UInt256) :
    SameFiles s (s.invalidChainFound pindexNew).state := by
  unfold invalidChainFound
  split
  · exact ⟨rfl, rfl, .refl _⟩
  · exact .refl s

theorem markInvalid_files (s : ChainState) (hash : UInt256) : SameFiles s (s.markInvalid hash) :=
  ⟨rfl, rfl, .update hash fun _ => rfl⟩

theorem connectFailed_files {reorganise : ChainState → Outcome} {s : ChainState} {pindexNew hash : UInt256}
    {reason : Failure} (leaf : (s.mapBlockIndex hash).bind CBlockIndex.pnext = none) :
    SameFiles s (s.connectFailed reorganise pindexNew hash reason).state := by
  unfold connectFailed
  split
  · apply SameFiles.andThen
    · apply SameFiles.andThen (invalidChainFound_files s pindexNew)
      have marked := (markInvalid_files (s.invalidChainFound pindexNew).state hash).trans
        (invalidChainFound_files _ hash)
      refine marked.andThen ?_
      have same : SameMemory s _ := (invalidChainFound_same s pindexNew).trans
        ((markInvalid_same (s.invalidChainFound pindexNew).state hash).trans (invalidChainFound_same _ hash))
      rw [same.pnext, leaf]
      exact .refl _
    · exact .refl _
  · exact .refl s

section

variable [Hashing] [PubKeys] [ScriptMachine] {env : Surroundings} {reorganise : ChainState → Outcome}

/-- The view that SetBestChain leaves in pcoinsTip. -/
def newTip (env : Surroundings) (w : Winding) : CoinsView :=
  if env.writesCoins then w.view.reload else w.view

def resurrectContext (env : Surroundings) (s : ChainState) (switch : Switch) (w : Winding) : AcceptContext :=
  ⟨env.settings, relink w.mapBlockIndex switch, s.nBestHeight, newTip env w, false⟩

structure Moved (env : Surroundings) (s : ChainState) (pindexNew : UInt256) (switch : Switch)
    (u : Unwinding) (w : Winding) (after : ChainState) : Prop where
  unwound : s.unwind pindexNew = .ok (switch, u)
  wound : s.wind env switch u = (w, none)
  pool : updateMempool (resurrectContext env s switch w) s.mempool u.vResurrect w.vDelete = .ok after.mempool
  coins : after.pcoinsTip = newTip env w
  best : after.pindexBest = some pindexNew
  index : after.mapBlockIndex = relink w.mapBlockIndex switch
  blocks : after.blockFiles = s.blockFiles
  undos : after.undoFiles = w.undoFiles

omit [PubKeys] in
theorem moveTip_ok {s : ChainState} {pindexNew : UInt256} {switch : Switch}
    {vResurrect vDelete : List CTransaction} {done : Unit}
    (run : (s.moveTip env pindexNew switch vResurrect vDelete).result = .ok done) :
    ∃ (pool : CTxMemPool) (pindex : CBlockIndex),
      updateMempool ⟨env.settings, relink s.mapBlockIndex switch, s.nBestHeight, s.pcoinsTip, false⟩
        s.mempool vResurrect vDelete = .ok pool ∧
      (s.moveTip env pindexNew switch vResurrect vDelete).state =
        { s with
          mapBlockIndex := relink s.mapBlockIndex switch
          mempool := pool
          hashBestChain := pindexNew
          pindexBest := some pindexNew
          nBestHeight := pindex.nHeight
          nBestChainWork := pindex.nChainWork } := by
  unfold moveTip at run ⊢
  dsimp only at run ⊢
  split at run
  · contradiction
  · contradiction
  · rename_i pindex pool known updated
    exact ⟨pool, pindex, updated, rfl⟩

theorem setBestChain_ok {s : ChainState} {pindexNew : UInt256} {done : Unit}
    (run : (s.setBestChain reorganise env pindexNew).result = .ok done) :
    ∃ switch u w, s.Moved env pindexNew switch u w (s.setBestChain reorganise env pindexNew).state := by
  unfold setBestChain at run ⊢
  cases unwound : s.unwind pindexNew with
  | error reason =>
      simp only [unwound] at run
      contradiction
  | ok result =>
      obtain ⟨switch, u⟩ := result
      simp only [unwound] at run ⊢
      cases wound : s.wind env switch u with
      | mk w stop =>
          cases stop with
          | some failure =>
              obtain ⟨reason, hash⟩ := failure
              simp only [wound] at run
              exfalso
              unfold connectFailed at run
              split at run
              · unfold Outcome.andThen at run
                split at run <;> simp_all
              · contradiction
          | none =>
              simp only [wound] at run ⊢
              refine ⟨switch, u, w, ?_⟩
              unfold commit at run ⊢
              by_cases writes : env.writesCoins = true
              · simp only [writes, if_true] at run ⊢
                split at run
                · contradiction
                · split at run
                  · contradiction
                  · rename_i space coins
                    obtain ⟨pool, pindex, updated, state⟩ := moveTip_ok run
                    rw [if_neg space, if_neg coins, state]
                    exact ⟨unwound, wound, by simpa [resurrectContext, newTip, writes, written] using updated,
                      by simp [newTip, writes], rfl, rfl, rfl, rfl⟩
              · simp only [writes] at run ⊢
                obtain ⟨pool, pindex, updated, state⟩ := moveTip_ok run
                rw [if_neg (by simp)] at *
                rw [state]
                exact ⟨unwound, wound, by simpa [resurrectContext, newTip, writes, written] using updated,
                  by simp [newTip, writes], rfl, rfl, rfl, rfl⟩

/-- Whether the coin database is written when SetBestChain has to. -/
def WritesCoins (env : Surroundings) (s : ChainState) (pindexNew : UInt256) : Prop :=
  s.Connects env pindexNew → s.pindexBest ≠ some pindexNew → env.writesCoins = true →
    env.fDiskSpace = true ∧ env.fCoinsWritten = true

/-- The undo files after a failed call are those of a part of the loop that connects blocks. -/
structure Stayed (env : Surroundings) (s : ChainState) (pindexNew : UInt256) (after : ChainState) : Prop where
  memory : SameMemory s after
  blocks : after.blockFiles = s.blockFiles
  tree : SameTree s.mapBlockIndex after.mapBlockIndex
  undos : after.undoFiles = s.undoFiles ∨ ∃ switch u w stop,
    s.unwind pindexNew = .ok (switch, u) ∧ s.wind env switch u = (w, stop) ∧ after.undoFiles = w.undoFiles

theorem commit_error {s : ChainState} {pindexNew : UInt256} {switch : Switch} {view : CoinsView}
    {vResurrect vDelete : List CTransaction} {reason : Failure}
    (run : (s.commit env pindexNew switch view vResurrect vDelete).result = .error reason)
    (returns : reason.returnsFalse = true) :
    SameFiles s (s.commit env pindexNew switch view vResurrect vDelete).state := by
  have stopped : ∀ t : ChainState, (t.moveTip env pindexNew switch vResurrect vDelete).result ≠ .error reason := by
    intro t failed
    have stops := updateMempool_stops ⟨env.settings, relink t.mapBlockIndex switch, t.nBestHeight,
      t.pcoinsTip, false⟩ t.mempool vResurrect vDelete
    unfold moveTip at failed
    dsimp only at failed
    split at failed
    · cases failed
      contradiction
    · rename_i cause _ thrown
      cases failed
      rw [stops.of_error thrown] at returns
      contradiction
    · contradiction
  unfold commit at run ⊢
  dsimp only at run ⊢
  split at run
  · split at run
    · rename_i writes space
      rw [if_pos writes, if_pos space]
      exact ⟨rfl, rfl, .refl _⟩
    · split at run
      · rename_i writes space coins
        rw [if_pos writes, if_neg space, if_pos coins]
        exact ⟨rfl, rfl, .refl _⟩
      · exact absurd run (stopped _)
  · exact absurd run (stopped _)

theorem setBestChain_error {s : ChainState} {pindexNew : UInt256} {reason : Failure} (consistent : s.Consistent)
    (writes : WritesCoins env s pindexNew)
    (run : (s.setBestChain reorganise env pindexNew).result = .error reason)
    (returns : reason.returnsFalse = true) :
    s.Stayed env pindexNew (s.setBestChain reorganise env pindexNew).state := by
  have atomic : s.Atomic (s.setBestChain reorganise env pindexNew) :=
    (setBestChain_atomic_iff consistent pindexNew).mpr writes
  have memory := atomic.unchanged reason run returns
  revert memory run
  unfold setBestChain
  cases unwound : s.unwind pindexNew with
  | error cause => exact fun run memory => ⟨memory, rfl, .refl _, Or.inl rfl⟩
  | ok result =>
      obtain ⟨switch, u⟩ := result
      dsimp only
      cases wound : s.wind env switch u with
      | mk w stop =>
          intro run memory
          have tree : SameTree s.mapBlockIndex (s.written w).mapBlockIndex := by
            have moves : Winding.Writes _ (connectTips env s.blockFiles switch.vConnect
                ⟨u.view, [], s.mapBlockIndex, s.undoFiles⟩).1 := connectTips_writes switch.vConnect _
            rw [show connectTips env s.blockFiles switch.vConnect _ = (w, stop) from wound] at moves
            exact moves
          have finish : ∀ after, SameFiles (s.written w) after → s.SameMemory after →
              s.Stayed env pindexNew after := fun after files memory =>
            ⟨memory, files.blocks, tree.trans files.tree,
              Or.inr ⟨switch, u, w, stop, unwound, wound, files.undos⟩⟩
          cases stop with
          | some failure =>
              obtain ⟨cause, hash⟩ := failure
              obtain ⟨pfork, plans, _⟩ := unwind_plans consistent.tree unwound
              have leaf := consistent.leaf plans (connectTips_failed wound)
              exact finish _ (connectFailed_files (((written_same s wound).pnext hash).trans leaf)) memory
          | none => exact finish _ (commit_error run returns) memory

end

/-- The tip of the coins is the tip of the active chain, along which the links lead. -/
structure Linked (s : ChainState) : Prop where
  tree : s.mapBlockIndex.Tree
  tip : s.pcoinsTip.best = s.pindexBest
  next : s.mapBlockIndex.Linked s.pindexBest

theorem Linked.consistent {s : ChainState} (linked : s.Linked) : s.Consistent := by
  refine ⟨linked.tree, linked.tip, fun hash index known some => ?_⟩
  obtain ⟨child, next⟩ := Option.ne_none_iff_exists'.mp some
  obtain ⟨up, best, tip, above⟩ := linked.next hash index child known next
  exact ⟨best, tip, (Ancestor.of_parent up).trans above⟩

theorem linked_of_next {map other : BlockMap} (same : SameShape map other)
    (next : ∀ hash, (other hash).map CBlockIndex.pnext = (map hash).map CBlockIndex.pnext)
    {tip : Option UInt256} (linked : map.Linked tip) : other.Linked tip := by
  intro hash index child known link
  obtain ⟨before, found, _⟩ := same.entry known
  have both := next hash
  rw [known, found] at both
  rw [same.parent_eq]
  exact linked hash before child found ((Option.some.inj both).symm.trans link)

theorem Linked.stayed [Hashing] [PubKeys] [ScriptMachine] {env : Surroundings} {s after : ChainState}
    {pindexNew : UInt256} (linked : s.Linked) (stayed : s.Stayed env pindexNew after) : after.Linked := by
  refine ⟨stayed.tree.shape.tree linked.tree, ?_, ?_⟩
  · rw [stayed.memory.coins, stayed.memory.best]
    exact linked.tip
  · rw [stayed.memory.best]
    exact linked_of_next stayed.tree.shape stayed.memory.next linked.next

section

variable [Hashing] [PubKeys] [ScriptMachine] {env : Surroundings} {s after : ChainState}
  {pindexNew : UInt256} {switch : Switch} {u : Unwinding} {w : Winding}

theorem Moved.tree (moved : s.Moved env pindexNew switch u w after) :
    SameTree s.mapBlockIndex w.mapBlockIndex := by
  have moves : Winding.Writes _ (connectTips env s.blockFiles switch.vConnect
      ⟨u.view, [], s.mapBlockIndex, s.undoFiles⟩).1 := connectTips_writes switch.vConnect _
  rw [show connectTips env s.blockFiles switch.vConnect _ = (w, none) from moved.wound] at moves
  exact moves

theorem Moved.shape (moved : s.Moved env pindexNew switch u w after) :
    SameShape s.mapBlockIndex after.mapBlockIndex := by
  rw [moved.index]
  exact moved.tree.shape.trans (relink_shape switch)

theorem Linked.moved (linked : s.Linked) (moved : s.Moved env pindexNew switch u w after) :
    after.Linked := by
  refine ⟨moved.shape.tree linked.tree, ?_, ?_⟩
  · rw [moved.coins, moved.best, ← wind_best linked.tree moved.unwound moved.wound, newTip]
    split <;> rfl
  · obtain ⟨pfork, plans, _⟩ := unwind_plans linked.tree moved.unwound
    rw [linked.tip] at plans
    rw [moved.index, moved.best]
    refine Plans.relink ?_ (plans.shape moved.tree.shape)
    exact linked_of_next moved.tree.shape (moved.tree.field CBlockIndex.pnext fun _ => rfl) linked.next

end

end ChainState

end BitCrystal
