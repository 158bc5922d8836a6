import BitCrystal.ChainCoins

namespace BitCrystal

open Data

/-! # The inputs of the memory pool

A transaction enters the pool when each of its inputs is an unspent output of
the active chain or an output of the pool.  SetBestChain changes the coins and
the pool, one after the other. -/

theorem CTransaction.mem_prevouts_of_place {tx : CTransaction} {outpoint : COutPoint}
    (spent : outpoint.place ∈ tx.spentInputs.map (·.prevout.place)) : outpoint ∈ tx.prevouts := by
  obtain ⟨txin, member, same⟩ := List.mem_map.mp spent
  obtain rfl : txin.prevout = outpoint := COutPoint.place_injective same
  refine List.mem_map_of_mem ?_
  unfold spentInputs at member
  split at member
  · contradiction
  · exact member

namespace CTxMemPool

/-- The outpoint is an output of a transaction in the pool, or unspent in the view. -/
def Feeds (pool : CTxMemPool) (view : CoinsView) (outpoint : COutPoint) : Prop :=
  (∃ parent, pool.mapTx[outpoint.hash]? = some parent ∧ outpoint.n.toNat < parent.vout.length) ∨
    (view.output outpoint).isSome

/-- Every input is fed; `rest` are the transactions whose conflicts have not
been removed yet. -/
def Waiting (pool : CTxMemPool) (view : CoinsView) (rest : List CTransaction) : Prop :=
  ∀ (hash : UInt256) (tx : CTransaction), pool.mapTx[hash]? = some tx → ∀ outpoint ∈ tx.prevouts,
    outpoint.hash ≠ hash ∧ (pool.Feeds view outpoint ∨ outpoint.place ∈ spentPlaces rest)

def Extends (pool next : CTxMemPool) : Prop :=
  ∀ (hash : UInt256) (tx : CTransaction), pool.mapTx[hash]? = some tx → next.mapTx[hash]? = some tx

theorem Extends.trans {pool between next : CTxMemPool} (first : pool.Extends between)
    (second : between.Extends next) : pool.Extends next :=
  fun hash tx stored => second hash tx (first hash tx stored)

theorem Feeds.extends {pool next : CTxMemPool} {view : CoinsView} {outpoint : COutPoint}
    (feeds : pool.Feeds view outpoint) (grows : pool.Extends next) : next.Feeds view outpoint := by
  cases feeds with
  | inl fed =>
      obtain ⟨parent, stored, within⟩ := fed
      exact Or.inl ⟨parent, grows _ _ stored, within⟩
  | inr unspent => exact Or.inr unspent

/-! ## Adding transactions -/

theorem Feeds.of_coinsView {pool : CTxMemPool} {base : CoinsView} {outpoint : COutPoint}
    (unspent : ((pool.coinsView base).output outpoint).isSome) : pool.Feeds base outpoint := by
  obtain ⟨txout, present⟩ := Option.isSome_iff_exists.mp unspent
  obtain ⟨coins, found, output⟩ := CoinsView.output_eq_some.mp present
  cases onChain : base.coins outpoint.hash with
  | some own =>
      simp only [coinsView, onChain, Option.some_or, Option.some.injEq] at found
      subst found
      exact Or.inr (Option.isSome_iff_exists.mpr ⟨txout, CoinsView.output_eq_some.mpr ⟨own, onChain, output⟩⟩)
  | none =>
      simp only [coinsView, onChain, Option.none_or, Option.map_eq_some_iff] at found
      obtain ⟨parent, stored, rfl⟩ := found
      obtain ⟨inVout, _⟩ := CCoins.output_eq_some.mp output
      exact Or.inl ⟨parent, stored, (List.getElem?_eq_some_iff.mp inVout).1⟩

section

variable [ScriptMachine] [Hashing] {context : AcceptContext} {pool next : CTxMemPool} {tx : CTransaction}
  {fLimitFree : Bool} {occurring : Set CTransaction}

theorem Accepted.extends {fCheckInputs : Bool} (accepted : Accepted context pool tx fCheckInputs fLimitFree next) :
    pool.Extends next := by
  intro hash other stored
  rw [accepted.next_eq, addUnchecked_mapTx, if_neg]
  · exact stored
  · rintro rfl
    rw [accepted.fresh] at stored
    contradiction

theorem Accepted.fed (accepted : Accepted context pool tx true fLimitFree next) :
    ∀ outpoint ∈ tx.prevouts, outpoint.hash ≠ tx.getHash ∧ pool.Feeds context.pcoinsTip outpoint := by
  have checks := accepted.inputs rfl
  simp only [acceptInputs, bind_eq_ok, require_eq_ok, exists_const] at checks
  obtain ⟨absent, _, available, _⟩ := checks
  intro outpoint member
  obtain ⟨txin, input, rfl⟩ := List.mem_map.mp member
  obtain ⟨txout, present⟩ := CTransaction.haveInputs_iff.mp available txin (by
    simpa [CTransaction.spentInputs, accepted.loose] using input)
  refine ⟨fun own => ?_, .of_coinsView (by rw [present]; rfl)⟩
  obtain ⟨coins, found, _⟩ := CoinsView.output_eq_some.mp present
  rw [own] at found
  simp [CoinsView.haveCoins, found] at absent

theorem Accepted.waiting {view : CoinsView} {rest : List CTransaction} (waiting : pool.Waiting view rest)
    (accepted : Accepted context pool tx true fLimitFree next) (same : context.pcoinsTip = view) :
    next.Waiting view rest := by
  intro hash other stored outpoint member
  rw [accepted.next_eq, addUnchecked_mapTx] at stored
  split at stored
  · rename_i own
    cases stored
    obtain ⟨different, feeds⟩ := accepted.fed outpoint member
    rw [same] at feeds
    exact ⟨own ▸ different, Or.inl (feeds.extends accepted.extends)⟩
  · obtain ⟨different, feeds⟩ := waiting hash other stored outpoint member
    exact ⟨different, feeds.imp_left fun feeds => feeds.extends accepted.extends⟩

/-! ## Replaying transactions -/

theorem resurrect_cases (run : resurrect context pool tx = .ok next) :
    next = pool ∨ Accepted context pool tx true false next := by
  unfold resurrect acceptToMemoryPool at run
  cases accepted : pool.accept context tx true false with
  | ok added =>
      simp only [accepted, Except.ok.injEq] at run
      subst run
      exact Or.inr (.of_accept accepted)
  | error reason =>
      rw [accepted] at run
      cases reason <;> simp [Failure.returnsFalse] at run <;> exact Or.inl run.symm

theorem replay_fed {txs : List CTransaction} (run : txs.foldlM (resurrect context) pool = .ok next)
    (occurs : ∀ tx ∈ txs, tx ∈ occurring) (sound : Sound occurring pool) :
    Sound occurring next ∧ pool.Extends next ∧
      ∀ (hash : UInt256) (tx : CTransaction), next.mapTx[hash]? = some tx →
        pool.mapTx[hash]? = some tx ∨ ∀ outpoint ∈ tx.prevouts,
          outpoint.hash ≠ hash ∧ next.Feeds context.pcoinsTip outpoint := by
  induction txs generalizing pool with
  | nil =>
      cases run
      exact ⟨sound, fun _ _ stored => stored, fun _ _ => Or.inl⟩
  | cons tx rest ih =>
      obtain ⟨between, step, remaining⟩ := foldlM_cons_eq_ok.mp run
      have later : ∀ other ∈ rest, other ∈ occurring :=
        fun other member => occurs other (List.mem_cons_of_mem tx member)
      cases resurrect_cases step with
      | inl same =>
          subst same
          exact ih remaining later sound
      | inr accepted =>
          obtain ⟨last, grows, fed⟩ := ih remaining later (sound.accept (occurs tx List.mem_cons_self) accepted)
          refine ⟨last, accepted.extends.trans grows, fun hash other stored => ?_⟩
          cases fed hash other stored with
          | inr added => exact Or.inr added
          | inl early =>
              rw [accepted.next_eq, addUnchecked_mapTx] at early
              split at early
              · rename_i own
                cases early
                refine Or.inr fun outpoint member => ?_
                obtain ⟨different, feeds⟩ := accepted.fed outpoint member
                exact ⟨own ▸ different, feeds.extends (accepted.extends.trans grows)⟩
              · exact Or.inl early

end

/-! ## Removing connected transactions -/

section

variable [Hashing] {occurring : Set CTransaction} {pool next : CTxMemPool} {tx : CTransaction}
  {view : CoinsView} {rest : List CTransaction}

/-- A connected transaction leaves the pool, and the spenders of its inputs leave
it with their descendants, unless they are equal to it. -/
structure Cleared (pool : CTxMemPool) (tx : CTransaction) (next : CTxMemPool) (gone : Set UInt256) : Prop where
  removed : Removed pool next gone
  own : tx.getHash ∈ gone
  closed : ∀ parent ∈ gone, parent ≠ tx.getHash → ∀ child, pool.Child parent child → child ∈ gone
  equal : ∀ (hash : UInt256) (other : CTransaction), next.mapTx[hash]? = some other →
    ∀ outpoint ∈ other.prevouts, outpoint ∈ tx.prevouts → other.equal tx = true
  conflict : ∀ key ∈ gone, key ≠ tx.getHash → ∃ (hash : UInt256) (other : CTransaction),
    pool.mapTx[hash]? = some other ∧ hash ≠ tx.getHash ∧
      (∃ outpoint ∈ other.prevouts, outpoint ∈ tx.prevouts) ∧ key ∈ descendants pool.Child hash

theorem removeConnected_cleared (sound : Sound occurring pool) (collisionFree : CollisionFree occurring)
    (occurs : tx ∈ occurring) (run : removeConnected pool tx = .ok next) :
    ∃ gone, Cleared pool tx next gone := by
  simp only [removeConnected, bind_eq_ok] at run
  obtain ⟨between, alone, conflicts⟩ := run
  have first := (remove_sat sound.exact (sound.agrees collisionFree occurs) false).of_ok alone
  have second := (removeConflicts_sat first.exact tx).of_ok conflicts
  rw [if_neg Bool.false_ne_true] at first
  have closed := between.conflicts_closed tx tx.prevouts
  refine ⟨_, first.trans second, Or.inl rfl, ?_, ?_, ?_⟩
  · intro parent member different child edge
    by_cases own : child = tx.getHash
    · exact Or.inl own
    · refine Or.inr (closed parent (Or.resolve_left member different) child ?_)
      exact first.child.mpr ⟨different, own, edge⟩
  · intro hash other stored outpoint spends also
    exact second.equal_of_conflicts stored spends also
  · intro key member different
    obtain ⟨outpoint, spent, hash, other, stored, spends, _, path⟩ := Or.resolve_left member different
    obtain ⟨stays, before⟩ := first.of_mem stored
    exact ⟨hash, other, before, stays, ⟨outpoint, spends, spent⟩,
      descendants_mono (fun parent child edge => (first.child.mp edge).2.2) path⟩

theorem Waiting.cleared {gone : Set UInt256} (waiting : pool.Waiting view (tx :: rest))
    (cleared : Cleared pool tx next gone) (sound : Sound occurring pool)
    (collisionFree : CollisionFree occurring) (occurs : tx ∈ occurring)
    (makes : ∀ nPos, nPos < tx.vout.length →
      (tx.getHash, nPos) ∈ spentPlaces rest ∨ (view.outputAt (tx.getHash, nPos)).isSome)
    (twinFree : ∀ (hash : UInt256) (other : CTransaction), pool.mapTx[hash]? = some other →
      other.equal tx = true → hash = tx.getHash) : next.Waiting view rest := by
  intro hash other stored outpoint member
  obtain ⟨stays, before⟩ := cleared.removed.of_mem stored
  obtain ⟨different, fed⟩ := waiting hash other before outpoint member
  refine ⟨different, ?_⟩
  rcases fed with (⟨parent, lookup, within⟩ | unspent) | spent
  · by_cases own : outpoint.hash = tx.getHash
    · rw [own] at lookup
      rw [(sound.agrees collisionFree occurs parent lookup).2] at within
      have place : outpoint.place = (tx.getHash, outpoint.n.toNat) := by rw [COutPoint.place, own]
      cases makes outpoint.n.toNat within with
      | inl later => exact Or.inr (place ▸ later)
      | inr made => exact Or.inl (Or.inr (by rw [CoinsView.output, place]; exact made))
    · refine Or.inl (Or.inl ⟨parent, ?_, within⟩)
      rw [cleared.removed.kept]
      · exact lookup
      · intro parentGone
        obtain ⟨n, input⟩ := List.mem_iff_getElem?.mp member
        have edge : pool.Child outpoint.hash hash :=
          ⟨parent, outpoint.n.toNat, n, lookup, within, other, before, by simpa using input⟩
        exact stays (cleared.closed _ parentGone own hash edge)
  · exact Or.inl (Or.inr unspent)
  · cases mem_spentPlaces_cons.mp spent with
    | inr later => exact Or.inr later
    | inl now =>
        have also : outpoint ∈ tx.prevouts := CTransaction.mem_prevouts_of_place now
        have same := cleared.equal hash other stored outpoint member also
        exact absurd (twinFree hash other before same ▸ cleared.own) stays

/-- No transaction of the pool is equal to one of the list that has another hash. -/
def TwinFree (pool : CTxMemPool) (txs : List CTransaction) : Prop :=
  ∀ (hash : UInt256) (other : CTransaction), pool.mapTx[hash]? = some other →
    ∀ tx ∈ txs, other.equal tx = true → hash = tx.getHash

theorem Waiting.removeConnected {vDelete pre : List CTransaction} (collisionFree : CollisionFree occurring)
    (occurs : ∀ tx ∈ vDelete, tx ∈ occurring)
    (makes : ∀ pre tx post nPos, vDelete = pre ++ tx :: post → nPos < tx.vout.length →
      (tx.getHash, nPos) ∈ spentPlaces post ∨ (view.outputAt (tx.getHash, nPos)).isSome)
    (split : vDelete = pre ++ rest) (waiting : pool.Waiting view rest) (twinFree : pool.TwinFree rest)
    (sound : Sound occurring pool) (run : rest.foldlM removeConnected pool = .ok next) :
    next.Waiting view [] ∧ Sound occurring next := by
  induction rest generalizing pool pre with
  | nil =>
      cases run
      exact ⟨waiting, sound⟩
  | cons tx rest ih =>
      obtain ⟨between, step, remaining⟩ := foldlM_cons_eq_ok.mp run
      have known : tx ∈ occurring := occurs tx (by rw [split]; simp)
      obtain ⟨gone, cleared⟩ := removeConnected_cleared sound collisionFree known step
      have next : vDelete = (pre ++ [tx]) ++ rest := by rw [split, List.append_assoc]; rfl
      refine ih next ?_ ?_ (sound.removed cleared.removed) remaining
      · exact waiting.cleared cleared sound collisionFree known (fun nPos => makes pre tx rest nPos split)
          fun hash other stored same => twinFree hash other stored tx List.mem_cons_self same
      · intro hash other stored later member
        exact twinFree hash other (cleared.removed.of_mem stored).2 later (List.mem_cons_of_mem tx member)

end

end CTxMemPool

/-! ## Calls of SetBestChain -/

namespace ChainState

open CTxMemPool

/-- Every input of a pool transaction refers to an output of another pool
transaction or to an unspent output of the active chain. -/
def InputsAvailable (s : ChainState) : Prop :=
  ∀ (hash : UInt256) (tx : CTransaction), s.mempool.mapTx[hash]? = some tx → ∀ outpoint ∈ tx.prevouts,
    (∃ parent, outpoint.hash ≠ hash ∧ s.mempool.mapTx[outpoint.hash]? = some parent ∧
      outpoint.n.toNat < parent.vout.length) ∨ (s.pcoinsTip.output outpoint).isSome

theorem inputsAvailable_of_waiting {s : ChainState} (waiting : s.mempool.Waiting s.pcoinsTip []) :
    s.InputsAvailable := by
  intro hash tx stored outpoint member
  obtain ⟨different, feeds⟩ := waiting hash tx stored outpoint member
  rcases feeds with (⟨parent, lookup, within⟩ | unspent) | spent
  · exact Or.inl ⟨parent, different, lookup, within⟩
  · exact Or.inr unspent
  · simp [spentPlaces] at spent

theorem Ready.withPool [Hashing] [PubKeys] {occurring : Set CTransaction} {s : ChainState}
    (ready : s.Ready occurring) (pool : CTxMemPool) :
    ({ s with mempool := pool } : ChainState).Ready occurring :=
  ⟨ready.indexed.shape (.refl _) rfl, ⟨ready.linked.tree, ready.linked.tip, ready.linked.next⟩, ready.started,
    ready.wellFormed, ready.genuine, ready.undos, ready.known⟩

section

variable [Hashing] [PubKeys] [ScriptMachine] {occurring : Set CTransaction} {env : Surroundings}
  {s after : ChainState} {pindexNew : UInt256} {switch : Switch} {u : Unwinding} {w : Winding}
  {pool : CTxMemPool}

/-- The memory pool after SetBestChain has replayed the disconnected transactions. -/
structure Replayed (env : Surroundings) (s : ChainState) (pindexNew : UInt256) (switch : Switch)
    (u : Unwinding) (w : Winding) (pool : CTxMemPool) : Prop where
  unwound : s.unwind pindexNew = .ok (switch, u)
  wound : s.wind env switch u = (w, none)
  replay : u.vResurrect.foldlM (resurrect (s.resurrectContext env switch w)) s.mempool = .ok pool

/-- A transaction of the pool spends from `tx`. -/
def SpentInPool (s : ChainState) (tx : CTransaction) : Prop :=
  ∃ (hash : UInt256) (child : CTransaction), s.mempool.mapTx[hash]? = some child ∧
    ∃ outpoint ∈ child.prevouts, outpoint.hash = tx.getHash

/-- The coins are written when they have to be, no transaction of the pool passes
for a connected one with another hash, and every disconnected transaction that
the pool spends from is connected again or accepted. -/
structure KeepsInputs (env : Surroundings) (s : ChainState) (pindexNew : UInt256) : Prop where
  writes : WritesCoins env s pindexNew
  twinFree : ∀ switch u w pool, s.Replayed env pindexNew switch u w pool → pool.TwinFree w.vDelete
  returns : ∀ switch u w pool, s.Replayed env pindexNew switch u w pool → ∀ tx, s.Disconnected switch tx →
    s.SpentInPool tx →
      (∃ other ∈ w.vDelete, other.getHash = tx.getHash) ∨ ∃ stored, pool.mapTx[tx.getHash]? = some stored

theorem Moved.replayed (moved : s.Moved env pindexNew switch u w after) : ∃ pool,
    s.Replayed env pindexNew switch u w pool ∧ w.vDelete.foldlM removeConnected pool = .ok after.mempool := by
  have update := moved.pool
  rw [updateMempool, bind_eq_ok] at update
  obtain ⟨pool, replay, remaining⟩ := update
  exact ⟨pool, ⟨moved.unwound, moved.wound, replay⟩, remaining⟩

theorem Ready.waiting (ready : s.Ready occurring) (collisionFree : CollisionFree occurring)
    (sound : Sound occurring s.mempool) (fed : s.mempool.Waiting s.pcoinsTip [])
    (moved : s.Moved env pindexNew switch u w after) (replayed : s.Replayed env pindexNew switch u w pool)
    (returns : ∀ tx, s.Disconnected switch tx → s.SpentInPool tx →
      (∃ other ∈ w.vDelete, other.getHash = tx.getHash) ∨ ∃ stored, pool.mapTx[tx.getHash]? = some stored) :
    pool.Waiting after.pcoinsTip w.vDelete ∧ Sound occurring pool := by
  have carries := ready.carries collisionFree moved
  obtain ⟨_, _, _, resurrected⟩ := ready.unwound moved.unwound
  obtain ⟨last, grows, added⟩ := replay_fed replayed.replay
    (fun tx member => ready.disconnected_occurs (resurrected tx member)) sound
  refine ⟨fun hash tx stored outpoint member => ?_, last⟩
  cases added hash tx stored with
  | inr new =>
      obtain ⟨different, feeds⟩ := new outpoint member
      rw [show (s.resurrectContext env switch w).pcoinsTip = after.pcoinsTip from moved.coins.symm] at feeds
      exact ⟨different, Or.inl feeds⟩
  | inl old =>
      obtain ⟨different, feeds⟩ := fed hash tx old outpoint member
      refine ⟨different, ?_⟩
      rcases feeds with (⟨parent, lookup, within⟩ | unspent) | spent
      · exact Or.inl (Or.inl ⟨parent, grows _ _ lookup, within⟩)
      · obtain ⟨txout, present⟩ := Option.isSome_iff_exists.mp unspent
        have known : Known occurring outpoint.place := ready.genuine _ txout present
        rcases carries.keeps outpoint.place unspent with ⟨dropped, gone, own⟩ | spent | still
        · -- the output was made by a disconnected transaction
          have parent : outpoint.hash = dropped.getHash := own
          cases returns dropped gone ⟨hash, tx, old, outpoint, member, parent⟩ with
          | inl again =>
              obtain ⟨other, connected, same⟩ := again
              obtain ⟨pre, post, split⟩ := List.append_of_mem connected
              have hashes : outpoint.place.1 = other.getHash := parent.trans same.symm
              have within := known.within collisionFree (carries.checked other connected).1 hashes.symm
              have place : outpoint.place = (other.getHash, outpoint.place.2) := Prod.ext hashes rfl
              cases carries.makes pre other post _ split within with
              | inl later =>
                  refine Or.inr ?_
                  rw [split, place, spentPlaces_append, List.mem_append, mem_spentPlaces_cons]
                  exact Or.inr (Or.inr later)
              | inr made => exact Or.inl (Or.inr (by rw [CoinsView.output, place]; exact made))
          | inr accepted =>
              obtain ⟨stored, lookup⟩ := accepted
              rw [← parent] at lookup
              have within := known.within collisionFree (last.stored _ stored lookup).1
                (last.exact.keyed _ stored lookup)
              exact Or.inl (Or.inl ⟨stored, lookup, within⟩)
        · exact Or.inr spent
        · exact Or.inl (Or.inr still)
      · simp [spentPlaces] at spent

/-! ## Every sequence of calls -/

/-- The states that calls of accept with input checks, new blocks and calls of
SetBestChain that meet a condition lead to from an empty pool.  A call of accept
that fails changes nothing. -/
inductive Run (meets : Surroundings → ChainState → UInt256 → Prop) (occurring : Set CTransaction) :
    ChainState → Prop
  | start {s : ChainState} (ready : s.Ready occurring) (empty : s.mempool = .empty) : Run meets occurring s
  | accept {s : ChainState} {settings : Settings} {fRateLimited fLimitFree : Bool} {tx : CTransaction}
      {pool : CTxMemPool} (run : Run meets occurring s) (occurs : tx ∈ occurring)
      (accepted : s.mempool.accept ⟨settings, s.mapBlockIndex, s.nBestHeight, s.pcoinsTip, fRateLimited⟩ tx
        true fLimitFree = .ok pool) : Run meets occurring { s with mempool := pool }
  | grow {s after : ChainState} (run : Run meets occurring s) (grows : Grows occurring s after) :
      Run meets occurring after
  | setBestChain {s : ChainState} {reorganise : ChainState → Outcome} {env : Surroundings}
      {pindexNew : UInt256} (run : Run meets occurring s) (met : meets env s pindexNew)
      (returns : ∀ reason, (s.setBestChain reorganise env pindexNew).result = .error reason →
        reason.returnsFalse = true) : Run meets occurring (s.setBestChain reorganise env pindexNew).state

/-- What every call keeps. -/
structure Fed (occurring : Set CTransaction) (s : ChainState) : Prop where
  ready : s.Ready occurring
  sound : Sound occurring s.mempool
  waiting : s.mempool.Waiting s.pcoinsTip []

theorem Fed.moved (fed : s.Fed occurring) (collisionFree : CollisionFree occurring)
    (keeps : s.KeepsInputs env pindexNew) (moved : s.Moved env pindexNew switch u w after) :
    after.Fed occurring := by
  obtain ⟨pool, replayed, remaining⟩ := moved.replayed
  obtain ⟨waiting, sound⟩ := fed.ready.waiting collisionFree fed.sound fed.waiting moved replayed
    (keeps.returns switch u w pool replayed)
  have carries := fed.ready.carries collisionFree moved
  obtain ⟨last, lastSound⟩ := waiting.removeConnected collisionFree
    (fun tx member => (carries.checked tx member).1) carries.makes (List.nil_append _).symm
    (keeps.twinFree switch u w pool replayed) sound remaining
  exact ⟨fed.ready.moved collisionFree moved, lastSound, last⟩

theorem Fed.stayed (fed : s.Fed occurring) (collisionFree : CollisionFree occurring)
    (stayed : s.Stayed env pindexNew after) : after.Fed occurring := by
  refine ⟨fed.ready.stayed collisionFree stayed, ?_, ?_⟩
  · rw [stayed.memory.pool]
    exact fed.sound
  · rw [stayed.memory.pool, stayed.memory.coins]
    exact fed.waiting

theorem Fed.setBestChain {reorganise : ChainState → Outcome} (fed : s.Fed occurring)
    (collisionFree : CollisionFree occurring) (keeps : s.KeepsInputs env pindexNew)
    (returns : ∀ reason, (s.setBestChain reorganise env pindexNew).result = .error reason →
      reason.returnsFalse = true) : (s.setBestChain reorganise env pindexNew).state.Fed occurring := by
  cases result : (s.setBestChain reorganise env pindexNew).result with
  | ok done =>
      obtain ⟨switch, u, w, moved⟩ := setBestChain_ok result
      exact fed.moved collisionFree keeps moved
  | error reason =>
      exact fed.stayed collisionFree
        (setBestChain_error fed.ready.linked.consistent keeps.writes result (returns reason result))

theorem Run.fed (collisionFree : CollisionFree occurring) (run : Run KeepsInputs occurring s) :
    s.Fed occurring := by
  induction run with
  | start ready empty =>
      refine ⟨ready, ?_, ?_⟩
      · rw [empty]
        exact Reached.empty.sound collisionFree
      · intro hash tx stored
        simp [empty, CTxMemPool.empty] at stored
  | accept run occurs accepted ih =>
      have entered := Accepted.of_accept accepted
      exact ⟨ih.ready.withPool _, ih.sound.accept occurs entered, entered.waiting ih.waiting rfl⟩
  | grow run grows ih =>
      refine ⟨ih.ready.grown grows, ?_, ?_⟩
      · rw [grows.pool]
        exact ih.sound
      · rw [grows.pool, grows.coins]
        exact ih.waiting
  | setBestChain run met returns ih => exact ih.setBestChain collisionFree met returns

/-- In every run whose calls of SetBestChain keep the inputs of the pool, they
stay available. -/
theorem mempool_inputs_available (collisionFree : CollisionFree occurring)
    (run : Run KeepsInputs occurring s) : s.InputsAvailable :=
  inputsAvailable_of_waiting (run.fed collisionFree).waiting

end

end ChainState

/-! ## Examples -/

namespace Sample

open CTxMemPool

/-- Coins with an unspent output of `payment`. -/
def paidView : CoinsView :=
  ⟨fun txid => if txid = payment.getHash then some (CCoins.ofTransaction payment 1) else none, some 5⟩

/-- A transaction with a comment that spends `payment`. -/
def remark (strTxComment : Bytes) : CTransaction :=
  { forward with nVersion := 2, strTxComment }

/-- Two blocks with the same transactions; the second one is not connected yet. -/
def openBlock (txs : List CTransaction) : ChainState :=
  { twoBlocks with pcoinsTip := paidView, blockFiles := fun pos => some (block pos.nPos txs) }

/-- The second block is connected. -/
def connectOpen (txs : List CTransaction) (pool : CTxMemPool) : Outcome :=
  ({ openBlock txs with mempool := pool } : ChainState).setBestChain idle sound 6

def remarkContext : AcceptContext := ⟨settings, twoBlocks.mapBlockIndex, 1, paidView, false⟩

def remarks : Set CTransaction :=
  {tx | tx ∈ [payment, coinbase, remark [0x61], remark [0x62]]}

theorem remarks_collisionFree : CollisionFree remarks := by
  have distinct : ∀ left ∈ [payment, coinbase, remark [0x61], remark [0x62]],
      ∀ right ∈ [payment, coinbase, remark [0x61], remark [0x62]],
      left.getHash = right.getHash → left.serialize = right.serialize := by decide +kernel
  exact distinct

theorem payment_checked : payment.Checked := by
  obtain ⟨done, passed⟩ := ok_of_isOk (show payment.checkTransaction.isOk = true by decide)
  exact .of_checkTransaction passed

theorem paidView_coins {txid : UInt256} {coins : CCoins} (found : paidView.coins txid = some coins) :
    txid = payment.getHash ∧ coins = CCoins.ofTransaction payment 1 := by
  obtain ⟨same, entry⟩ := Option.ite_none_right_eq_some.mp found
  exact ⟨same, (Option.some.inj entry).symm⟩

theorem paidView_wellFormed : paidView.WellFormed := by
  intro txid coins found _
  obtain ⟨rfl, rfl⟩ := paidView_coins found
  exact payment_checked.storable.coins (by decide)

theorem paidView_genuine {occurring : Set CTransaction} (occurs : payment ∈ occurring) : paidView.Genuine occurring := by
  intro place txout present
  obtain ⟨coins, found, output⟩ := Option.bind_eq_some_iff.mp present
  obtain ⟨same, rfl⟩ := paidView_coins found
  rw [payment_checked.storable.output] at output
  exact ⟨payment, occurs, payment_checked, same.symm, (List.getElem?_eq_some_iff.mp output).1⟩

theorem openBlock_ready {txs : List CTransaction} (occurs : ∀ tx ∈ txs, tx ∈ remarks) :
    (openBlock txs).Ready remarks := by
  have root : (openBlock txs).mapBlockIndex.parent 5 = none := by
    simp [openBlock, twoBlocks, BlockMap.parent, stored]
  have genesis : twoBlocks.mapBlockIndex.parent hashGenesisBlock = none := rfl
  have files : BlocksOccur remarks (openBlock txs).blockFiles := by
    intro pos stored found tx member
    cases found
    exact occurs tx member
  refine ⟨⟨twoBlocks_consistent.tree, ?_, genesis, files⟩,
    ⟨twoBlocks_consistent.tree, rfl, ?_⟩, ⟨5, rfl, rfl⟩, paidView_wellFormed, paidView_genuine (by simp [remarks]), ?_, ?_⟩
  · intro hash
    cases known : (openBlock txs).mapBlockIndex hash with
    | none => simp [BlockMap.height, known]
    | some index =>
        rw [BlockMap.height_of known]
        rcases twoBlocks_index known with ⟨_, rfl⟩ | ⟨_, rfl⟩ <;> decide
  · intro hash index child known next
    rcases twoBlocks_index known with ⟨_, rfl⟩ | ⟨_, rfl⟩ <;> contradiction
  · intro pos prev blockundo read
    have empty : CBlockUndo.readFromDisk [] prev = none := rfl
    rw [show (openBlock txs).undoFiles pos = [] from rfl, empty] at read
    contradiction
  · intro hash best tip above up
    cases tip
    exact absurd (above.eq_of_root root ▸ root) up

end Sample

namespace ChainState

open CTxMemPool Sample

theorem openBlock_switch : ((openBlock [coinbase]).unwind 6).map (fun (switch, u) =>
    (switch.vDisconnect, u.vResurrect, ((openBlock [coinbase]).wind sound switch u).1.vDelete)) =
      .ok ([], [], [coinbase]) := by decide +kernel

theorem openBlock_keepsInputs {pool : CTxMemPool}
    (accepted : CTxMemPool.Accepted remarkContext empty (remark [0x61]) true true pool) :
    KeepsInputs sound { openBlock [coinbase] with mempool := pool } 6 := by
  have shape : ∀ switch u w replayed,
      Replayed sound { openBlock [coinbase] with mempool := pool } 6 switch u w replayed →
        switch.vDisconnect = [] ∧ w.vDelete = [coinbase] ∧ replayed = pool := by
    intro switch u w replayed run
    have switched := openBlock_switch
    rw [show (openBlock [coinbase]).unwind 6 = .ok (switch, u) from run.unwound] at switched
    simp only [Except.map, Except.ok.injEq, Prod.mk.injEq] at switched
    obtain ⟨vDisconnect, vResurrect, vDelete⟩ := switched
    rw [show (openBlock [coinbase]).wind sound switch u = (w, none) from run.wound] at vDelete
    have replay := run.replay
    rw [vResurrect] at replay
    cases replay
    exact ⟨vDisconnect, vDelete, rfl⟩
  refine ⟨fun _ _ _ => ⟨rfl, rfl⟩, ?_, ?_⟩
  · intro switch u w replayed run hash other stored tx connected same
    obtain ⟨_, vDelete, rfl⟩ := shape switch u w replayed run
    rw [vDelete, List.mem_singleton] at connected
    subst connected
    rw [accepted.next_eq, addUnchecked_mapTx] at stored
    split at stored
    · cases stored
      exact absurd same (by decide)
    · simp [empty] at stored
  · intro switch u w replayed run tx dropped
    obtain ⟨hash, member, _⟩ := dropped
    rw [(shape switch u w replayed run).1] at member
    contradiction

theorem openBlock_run {meets : Surroundings → ChainState → UInt256 → Prop} {txs : List CTransaction}
    (occurs : ∀ tx ∈ txs, tx ∈ remarks) {pool : CTxMemPool}
    (accepted : empty.accept remarkContext (remark [0x61]) true true = .ok pool) :
    Run meets remarks { openBlock txs with mempool := pool } := by
  have first : Run meets remarks (openBlock txs) := .start (openBlock_ready occurs) rfl
  exact first.accept (by simp [remarks]) accepted

theorem connectOpen_returns : (empty.accept remarkContext (remark [0x61]) true true).map (fun pool =>
    (connectOpen [coinbase] pool).result.isOk) = .ok true := by decide +kernel

theorem mempool_inputs_available_sample : ∃ pool,
    empty.accept remarkContext (remark [0x61]) true true = .ok pool ∧
      (connectOpen [coinbase] pool).state.InputsAvailable := by
  obtain ⟨pool, accepted, returns⟩ := ok_of_map_eq_ok connectOpen_returns
  obtain ⟨done, result⟩ := ok_of_isOk returns
  have before : Run KeepsInputs remarks { openBlock [coinbase] with mempool := pool } :=
    openBlock_run (by simp [remarks]) accepted
  have after : Run KeepsInputs remarks (connectOpen [coinbase] pool).state := by
    refine before.setBestChain (openBlock_keepsInputs (.of_accept accepted)) fun reason failed => ?_
    rw [show ChainState.setBestChain _ _ _ _ = connectOpen [coinbase] pool from rfl, result] at failed
    simp at failed
  exact ⟨pool, accepted, mempool_inputs_available remarks_collisionFree after⟩

theorem twin_loses : (empty.accept remarkContext (remark [0x61]) true true).map (fun pool =>
    let outcome := connectOpen [coinbase, remark [0x62]] pool
    (outcome.result.isOk, outcome.state.mempool.mapTx[(remark [0x61]).getHash]?,
      outcome.state.mempool.mapTx[payment.getHash]?, outcome.state.pcoinsTip.output ⟨payment.getHash, 0⟩)) =
    .ok (true, some (remark [0x61]), none, none) := by decide +kernel

/-- A block connects a transaction that only differs in its comment from one of
the pool; that one stays in the pool. -/
theorem mempool_inputs_twin : ∃ s, Run (fun _ _ _ => True) remarks s ∧ CollisionFree remarks ∧
    ¬ s.InputsAvailable := by
  obtain ⟨pool, accepted, loses⟩ := ok_of_map_eq_ok twin_loses
  simp only [Prod.mk.injEq] at loses
  obtain ⟨returns, stored, missing, spent⟩ := loses
  obtain ⟨done, result⟩ := ok_of_isOk returns
  have before : Run (fun _ _ _ => True) remarks { openBlock [coinbase, remark [0x62]] with mempool := pool } :=
    openBlock_run (by simp [remarks]) accepted
  have after : Run (fun _ _ _ => True) remarks (connectOpen [coinbase, remark [0x62]] pool).state := by
    refine before.setBestChain trivial fun reason failed => ?_
    rw [show ChainState.setBestChain _ _ _ _ = connectOpen [coinbase, remark [0x62]] pool from rfl, result] at failed
    simp at failed
  refine ⟨_, after, remarks_collisionFree, fun available => ?_⟩
  rcases available _ _ stored ⟨payment.getHash, 0⟩ (.head _) with ⟨parent, _, lookup, _⟩ | unspent
  · rw [missing] at lookup
    simp at lookup
  · rw [spent] at unspent
    simp at unspent

end ChainState
end BitCrystal
