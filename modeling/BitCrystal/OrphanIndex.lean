import BitCrystal.OrphanTransactions

namespace BitCrystal

open Data

/-! # The index of orphan transactions

`mapOrphanTransactionsByPrev` finds the orphans that spend from a transaction.
It follows `mapOrphanTransactions` in every operation; only the lookups of the
work queue may leave entries without orphans behind. -/

/-- A stored stream holds a transaction that spends an output of `prev`. -/
def Spends (vMsg : Bytes) (prev : UInt256) : Prop :=
  ∃ tx, readTx vMsg = .ok tx ∧ prev ∈ tx.vin.map (·.prevout.hash)

theorem spends_iff {vMsg : Bytes} {tx : CTransaction} (read : readTx vMsg = .ok tx) {prev : UInt256} :
    Spends vMsg prev ↔ prev ∈ tx.vin.map (·.prevout.hash) := by
  constructor
  · rintro ⟨other, also, member⟩
    rw [read, Except.ok.injEq] at also
    exact also ▸ member
  · intro member
    exact ⟨tx, read, member⟩

theorem readTx_sat (stream : Bytes) :
    Sat (readTx stream) (fun tx => readTx stream = .ok tx) fun reason => ∃ what, reason = .exception what := by
  unfold readTx
  cases CTransaction.unserialize stream with
  | none => exact ⟨_, rfl⟩
  | some result => rfl

namespace OrphanMaps

section

variable [Hashing]

/-- The index lists the stored orphans under what they spend from; only the keys
of a given set may have entries without orphans. -/
structure Indexed (vacant : Set UInt256) (orphans : OrphanMaps) : Prop where
  stored : ∀ (hash : UInt256) (vMsg : Bytes), orphans.mapOrphanTransactions[hash]? = some vMsg →
    ∃ tx, readTx vMsg = .ok tx ∧ tx.getHash = hash
  index : ∀ (prev hash : UInt256) (vMsg : Bytes),
    (orphans.mapOrphanTransactionsByPrev.under prev)[hash]? = some vMsg ↔
      orphans.mapOrphanTransactions[hash]? = some vMsg ∧ Spends vMsg prev
  vacant : ∀ prev, orphans.mapOrphanTransactionsByPrev.Vacant prev → prev ∈ vacant

variable {vacant : Set UInt256} {orphans next : OrphanMaps}

theorem Indexed.empty : Indexed vacant OrphanMaps.empty := by
  refine ⟨?_, ?_, ?_⟩
  · intro hash vMsg found
    simp [OrphanMaps.empty] at found
  · intro prev hash vMsg
    simp [OrphanMaps.empty, Multimap.under]
  · intro prev found
    simp [OrphanMaps.empty, Multimap.Vacant] at found

/-! ## The operations -/

theorem Indexed.addOrphanTx {vMsg : Bytes} (indexed : Indexed vacant orphans)
    (run : orphans.addOrphanTx vMsg = .ok next) : Indexed vacant next := by
  rcases addOrphanTx_cases run with rfl | ⟨tx, read, fresh, rfl⟩
  · exact indexed
  · refine ⟨?_, ?_, fun prev found => indexed.vacant prev (Multimap.vacant_linkAll found)⟩
    · intro hash stream found
      simp only [Std.ExtTreeMap.getElem?_insert, Std.compare_eq_iff_eq] at found
      split at found
      · cases found
        exact ⟨tx, read, ‹_›⟩
      · exact indexed.stored hash stream found
    · intro prev hash stream
      have before : (orphans.mapOrphanTransactionsByPrev.under prev)[tx.getHash]? = none := by
        cases found : (orphans.mapOrphanTransactionsByPrev.under prev)[tx.getHash]? with
        | none => rfl
        | some other => simp [((indexed.index _ _ _).mp found).1] at fresh
      simp only [Multimap.getElem?_linkAll, Std.ExtTreeMap.getElem?_insert, Std.compare_eq_iff_eq]
      by_cases own : hash = tx.getHash
      · subst own
        by_cases spends : prev ∈ tx.vin.map (·.prevout.hash)
        · rw [if_pos ⟨spends, rfl⟩, if_pos rfl, before, Option.none_or, Option.some.injEq]
          refine ⟨?_, And.left⟩
          rintro rfl
          exact ⟨rfl, (spends_iff read).mpr spends⟩
        · rw [if_neg (fun both => spends both.1), if_pos rfl, before, Option.some.injEq]
          refine iff_of_false (by simp) ?_
          rintro ⟨rfl, also⟩
          exact spends ((spends_iff read).mp also)
      · rw [if_neg (fun both => own both.2), if_neg (fun same => own same.symm)]
        exact indexed.index prev hash stream

theorem Indexed.added (indexed : Indexed vacant orphans) (vMsg : Bytes) :
    Sat (orphans.addOrphanTx vMsg) (Indexed vacant) fun reason => ∃ what, reason = .exception what := by
  have read := readTx_sat vMsg
  cases run : orphans.addOrphanTx vMsg with
  | ok next => exact indexed.addOrphanTx run
  | error reason =>
      unfold OrphanMaps.addOrphanTx at run
      cases stream : readTx vMsg with
      | error what =>
          rw [stream, error_bind] at run
          cases run
          exact read.of_error stream
      | ok tx =>
          rw [stream, ok_bind] at run
          split_ifs at run <;> contradiction

/-- What is stored can be read, so EraseOrphanTx never throws. -/
theorem Indexed.eraseOrphanTx (indexed : Indexed vacant orphans) (hash : UInt256) :
    ∃ next, orphans.eraseOrphanTx hash = .ok next ∧ Indexed vacant next ∧
      next.mapOrphanTransactions = orphans.mapOrphanTransactions.erase hash := by
  unfold OrphanMaps.eraseOrphanTx
  cases found : orphans.mapOrphanTransactions[hash]? with
  | none =>
      refine ⟨orphans, rfl, indexed, Std.ExtTreeMap.ext_getElem? fun other => ?_⟩
      rw [Std.ExtTreeMap.getElem?_erase]
      simp only [Std.compare_eq_iff_eq]
      split
      · rename_i same
        rw [← same, found]
      · rfl
  | some vMsg =>
      obtain ⟨tx, read, own⟩ := indexed.stored hash vMsg found
      refine ⟨_, by simp only [read, ok_bind]; rfl, ⟨?_, ?_, ?_⟩, rfl⟩
      · intro other stream left
        simp only [Std.ExtTreeMap.getElem?_erase, Std.compare_eq_iff_eq] at left
        split at left
        · contradiction
        · exact indexed.stored other stream left
      · intro prev other stream
        simp only [Multimap.getElem?_unlinkAll, Std.ExtTreeMap.getElem?_erase, Std.compare_eq_iff_eq]
        by_cases same : other = hash
        · subst same
          rw [if_pos rfl]
          refine iff_of_false ?_ (by simp)
          split_ifs with spends
          · simp
          · intro left
            obtain ⟨again, also⟩ := (indexed.index _ _ _).mp left
            rw [found, Option.some.injEq] at again
            subst again
            exact spends ⟨(spends_iff read).mp also, rfl⟩
        · rw [if_neg (fun both => same both.2), if_neg (fun eq => same eq.symm)]
          exact indexed.index prev other stream
      · intro prev left
        exact indexed.vacant prev (Multimap.vacant_unlinkAll left)

theorem Indexed.eraseQueue (indexed : Indexed vacant orphans) (hashes : List UInt256) :
    ∃ next, hashes.foldlM OrphanMaps.eraseOrphanTx orphans = .ok next ∧ Indexed vacant next ∧
      next.mapOrphanTransactions.size ≤ orphans.mapOrphanTransactions.size := by
  induction hashes generalizing orphans with
  | nil => exact ⟨orphans, rfl, indexed, Nat.le_refl _⟩
  | cons hash rest ih =>
      obtain ⟨between, run, kept, erased⟩ := indexed.eraseOrphanTx hash
      obtain ⟨next, remaining, last, fewer⟩ := ih kept
      refine ⟨next, foldlM_cons_eq_ok.mpr ⟨between, run, remaining⟩, last, Nat.le_trans fewer ?_⟩
      rw [erased]
      exact Std.ExtTreeMap.size_erase_le

omit [Hashing] in
theorem orphanAt_mem {randomhash hash : UInt256} (found : orphans.orphanAt randomhash = some hash) :
    hash ∈ orphans.mapOrphanTransactions := by
  unfold orphanAt at found
  refine Std.ExtTreeMap.mem_keys.mp ?_
  rcases Option.or_eq_some_iff.mp found with above | ⟨_, first⟩
  · exact List.mem_of_find?_eq_some above
  · exact List.mem_of_head? first

omit [Hashing] in
theorem orphanAt_isSome (filled : 0 < orphans.mapOrphanTransactions.size) (randomhash : UInt256) :
    ∃ hash, orphans.orphanAt randomhash = some hash := by
  have some : orphans.mapOrphanTransactions.keys ≠ [] := by
    intro none
    have count := Std.ExtTreeMap.length_keys (t := orphans.mapOrphanTransactions)
    rw [none, List.length_nil] at count
    omega
  refine Option.isSome_iff_exists.mp ?_
  simp [orphanAt, List.isSome_head?, some]

theorem Indexed.evictOrphans (indexed : Indexed vacant orphans) (random : Nat → UInt256)
    (nMaxOrphans nEvicted : Nat) {room : Nat} (enough : orphans.mapOrphanTransactions.size < room) :
    ∃ next count, OrphanMaps.evictOrphans random nMaxOrphans room nEvicted orphans = .ok (next, count) ∧
      Indexed vacant next ∧ next.mapOrphanTransactions.size ≤ nMaxOrphans := by
  induction room generalizing orphans nEvicted with
  | zero => contradiction
  | succ room ih =>
      unfold OrphanMaps.evictOrphans
      split
      · rename_i exceeded
        obtain ⟨hash, chosen⟩ := orphanAt_isSome (Nat.zero_lt_of_lt exceeded) (random nEvicted)
        obtain ⟨between, run, kept, erased⟩ := indexed.eraseOrphanTx hash
        have fewer : between.mapOrphanTransactions.size = orphans.mapOrphanTransactions.size - 1 := by
          rw [erased, Std.ExtTreeMap.size_erase, if_pos (Std.ExtTreeMap.contains_iff_mem.mpr (orphanAt_mem chosen))]
        obtain ⟨next, count, remaining, last, within⟩ := ih kept (nEvicted + 1) (by omega)
        refine ⟨next, count, ?_, last, within⟩
        simp only [chosen, expect, ok_bind, run, remaining]
      · exact ⟨orphans, nEvicted, rfl, indexed, by omega⟩

theorem Indexed.limitOrphanTxSize (indexed : Indexed vacant orphans) (random : Nat → UInt256)
    (nMaxOrphans : Nat) : ∃ next count, OrphanMaps.limitOrphanTxSize random nMaxOrphans orphans = .ok (next, count) ∧
      Indexed vacant next ∧ next.mapOrphanTransactions.size ≤ nMaxOrphans :=
  indexed.evictOrphans random nMaxOrphans 0 (Nat.lt_succ_self _)

end

end OrphanMaps

/-! ## The work queue -/

section

variable [Hashing] [ScriptMachine]

/-- AcceptToMemoryPool does not return. -/
def Stops (reason : Failure) : Prop :=
  ∃ (context : AcceptContext) (pool : CTxMemPool) (tx : CTransaction),
    pool.acceptToMemoryPool context tx true true = .error reason ∧ reason.returnsFalse = false

namespace TxNode

variable {s : TxNode} {r : Resolution} {context : Nat → AcceptContext}

/-- What the loops over the work queue keep: the queue holds different hashes of
the pool, all but the first of them of stored orphans, and only hashes of the
queue have got entries without orphans. -/
structure Resolving (s : TxNode) (r : Resolution) : Prop where
  indexed : OrphanMaps.Indexed
    {prev | prev ∈ r.vWorkQueue ∧ s.orphans.mapOrphanTransactionsByPrev[prev]? = none}
    ⟨s.orphans.mapOrphanTransactions, r.mapOrphanTransactionsByPrev⟩
  grows : ∀ prev : UInt256, r.mapOrphanTransactionsByPrev[prev]? = none →
    s.orphans.mapOrphanTransactionsByPrev[prev]? = none
  nodup : r.vWorkQueue.Nodup
  pooled : ∀ hash ∈ r.vWorkQueue, ∃ tx, r.mempool.mapTx[hash]? = some tx
  known : ∀ hash ∈ r.vWorkQueue.tail, hash ∈ s.orphans.mapOrphanTransactions
  started : r.vWorkQueue ≠ []

omit [ScriptMachine] in
theorem Resolving.length_le (resolving : Resolving s r) :
    r.vWorkQueue.length ≤ s.orphans.mapOrphanTransactions.size + 1 := by
  have inside : r.vWorkQueue.tail ⊆ s.orphans.mapOrphanTransactions.keys :=
    fun hash member => Std.ExtTreeMap.mem_keys.mpr (resolving.known hash member)
  have fewer := (List.Nodup.tail resolving.nodup).length_le_of_subset inside
  rw [Std.ExtTreeMap.length_keys, List.length_tail] at fewer
  omega

omit [ScriptMachine] in
theorem Resolving.touch (resolving : Resolving s r) {hashPrev : UInt256} (member : hashPrev ∈ r.vWorkQueue) :
    Resolving s { r with mapOrphanTransactionsByPrev := r.mapOrphanTransactionsByPrev.touch hashPrev } := by
  refine ⟨⟨resolving.indexed.stored, ?_, ?_⟩, ?_, resolving.nodup, resolving.pooled, resolving.known,
    resolving.started⟩
  · intro prev hash vMsg
    rw [Multimap.under_touch]
    exact resolving.indexed.index prev hash vMsg
  · intro prev vacant
    rcases Multimap.vacant_touch vacant with before | ⟨rfl, missing⟩
    · exact resolving.indexed.vacant prev before
    · exact ⟨member, resolving.grows _ missing⟩
  · intro prev missing
    rcases Multimap.touch_cases r.mapOrphanTransactionsByPrev hashPrev prev with same | ⟨_, _, made⟩
    · exact resolving.grows prev (same ▸ missing)
    · simp [made] at missing

theorem Resolving.enqueue (resolving : Resolving s r) {tx : CTransaction} {mempool : CTxMemPool}
    (accepted : CTxMemPool.Accepted (context r.calls) r.mempool tx true true mempool)
    (known : tx.getHash ∈ s.orphans.mapOrphanTransactions) (relayed : List (UInt256 × Bytes)) :
    Resolving s { r with
      mempool
      vWorkQueue := r.vWorkQueue ++ [tx.getHash]
      vEraseQueue := r.vEraseQueue ++ [tx.getHash]
      relayed
      calls := r.calls + 1 } := by
  have stays : ∀ hash ∈ r.vWorkQueue ++ [tx.getHash], ∃ stored, mempool.mapTx[hash]? = some stored := by
    intro hash member
    rw [accepted.next_eq, CTxMemPool.addUnchecked_mapTx]
    split
    · exact ⟨tx, rfl⟩
    · rename_i other
      rcases List.mem_append.mp member with early | own
      · exact resolving.pooled hash early
      · exact absurd (List.mem_singleton.mp own).symm other
  have new : tx.getHash ∉ r.vWorkQueue := by
    intro member
    obtain ⟨stored, found⟩ := resolving.pooled _ member
    simp [accepted.fresh] at found
  refine ⟨⟨resolving.indexed.stored, resolving.indexed.index, fun prev vacant => ?_⟩, resolving.grows, ?_, stays, ?_,
    by simp⟩
  · obtain ⟨member, missing⟩ := resolving.indexed.vacant prev vacant
    exact ⟨List.mem_append_left _ member, missing⟩
  · rw [List.nodup_append]
    exact ⟨resolving.nodup, by simp, fun hash member other own same =>
      new (List.mem_singleton.mp own ▸ same ▸ member)⟩
  · intro hash member
    rw [List.tail_append_of_ne_nil resolving.started, List.mem_append, List.mem_singleton] at member
    rcases member with early | rfl
    · exact resolving.known hash early
    · exact known

theorem Resolving.resolveOrphan (resolving : Resolving s r) {orphan : UInt256 × Bytes}
    (stored : s.orphans.mapOrphanTransactions[orphan.1]? = some orphan.2) :
    Sat (BitCrystal.resolveOrphan context r orphan)
      (fun next => Resolving s next ∧ r.vWorkQueue.length ≤ next.vWorkQueue.length) Stops := by
  obtain ⟨tx, read, own⟩ := resolving.indexed.stored orphan.1 orphan.2 stored
  have known : tx.getHash ∈ s.orphans.mapOrphanTransactions := by
    rw [own, Std.ExtTreeMap.mem_iff_isSome_getElem?, stored]
    rfl
  simp only [BitCrystal.resolveOrphan, read, ok_bind]
  cases verdict : r.mempool.acceptToMemoryPool (context r.calls) tx true true with
  | ok mempool =>
      exact ⟨resolving.enqueue (.of_acceptToMemoryPool verdict) known _, by simp⟩
  | error reason =>
      have skipped (erased : List UInt256) : Resolving s { r with vEraseQueue := erased, calls := r.calls + 1 } :=
        ⟨resolving.indexed, resolving.grows, resolving.nodup, resolving.pooled, resolving.known, resolving.started⟩
      split
      · contradiction
      · exact ⟨skipped _, Nat.le_refl _⟩
      · rename_i other
        cases other
        split
        · exact ⟨skipped _, Nat.le_refl _⟩
        · rename_i stops
          exact ⟨_, _, _, verdict, Bool.eq_false_iff.mpr stops⟩

theorem Resolving.resolveQueue (resolving : Resolving s r) {room i : Nat} (turn : i ≤ r.vWorkQueue.length)
    (enough : s.orphans.mapOrphanTransactions.size + 2 ≤ room + i) :
    Sat (BitCrystal.resolveQueue context room i r) (Resolving s) Stops := by
  induction room generalizing i r with
  | zero =>
      have bound := resolving.length_le
      omega
  | succ room ih =>
      unfold BitCrystal.resolveQueue
      cases next : r.vWorkQueue[i]? with
      | none => exact resolving
      | some hashPrev =>
          have member : hashPrev ∈ r.vWorkQueue := List.mem_of_getElem? next
          have within : i < r.vWorkQueue.length := (List.getElem?_eq_some_iff.mp next).1
          have waiting : ∀ orphan ∈ (r.mapOrphanTransactionsByPrev.under hashPrev).toList,
              s.orphans.mapOrphanTransactions[orphan.1]? = some orphan.2 := by
            intro orphan listed
            have found := Std.ExtTreeMap.mem_toList_iff_getElem?_eq_some.mp listed
            exact ((resolving.indexed.index _ _ _).mp found).1
          refine Sat.bind (?_ : Sat _ (fun last => Resolving s last ∧
            r.vWorkQueue.length ≤ last.vWorkQueue.length) _) ?_
          · refine (Sat.foldlM (fun state rest => (Resolving s state ∧ r.vWorkQueue.length ≤ state.vWorkQueue.length) ∧
              ∀ orphan ∈ rest, s.orphans.mapOrphanTransactions[orphan.1]? = some orphan.2) ?_ _ _
              ⟨⟨resolving.touch member, Nat.le_refl _⟩, waiting⟩).weaken fun last kept => kept.1
            intro state orphan rest kept
            refine (kept.1.1.resolveOrphan (kept.2 orphan List.mem_cons_self)).weaken fun last step => ?_
            exact ⟨⟨step.1, Nat.le_trans kept.1.2 step.2⟩,
              fun later inRest => kept.2 later (List.mem_cons_of_mem orphan inRest)⟩
          · intro last kept
            exact ih kept.1 (by omega) (by omega)

theorem resolve_sat (indexed : OrphanMaps.Indexed ∅ s.orphans) {tx : CTransaction} {mempool : CTxMemPool}
    (accepted : CTxMemPool.Accepted (context 0) s.mempool tx true true mempool) (vMsg : Bytes) :
    Sat (s.resolve context mempool tx.getHash vMsg) (Resolving s) Stops := by
  refine Resolving.resolveQueue ⟨⟨indexed.stored, indexed.index, fun prev vacant => ?_⟩, fun _ missing => missing,
    by simp, ?_, by simp, by simp⟩ (Nat.zero_le _) (Nat.le_refl _)
  · exact absurd (indexed.vacant prev vacant) (Set.notMem_empty prev)
  · intro hash member
    rw [List.mem_singleton.mp member, accepted.next_eq, CTxMemPool.addUnchecked_mapTx, if_pos rfl]
    exact ⟨tx, rfl⟩

/-! ## Messages -/

/-- Each transaction that the message brings into the pool, the received one and
those it resolves, is spent from by an orphan stored before. -/
def FindsSpenders (context : Nat → AcceptContext) (s : TxNode) (vRecv : Bytes) : Prop :=
  ∀ tx mempool r, readTx vRecv = .ok tx → s.mempool.acceptToMemoryPool (context 0) tx true true = .ok mempool →
    s.resolve context mempool tx.getHash (truncateMessage tx vRecv) = .ok r →
      ∀ hash ∈ r.vWorkQueue, ∃ (orphan : UInt256) (vMsg : Bytes),
        s.orphans.mapOrphanTransactions[orphan]? = some vMsg ∧ Spends vMsg hash

/-- What every message keeps. -/
structure Bounded (s : TxNode) : Prop where
  indexed : OrphanMaps.Indexed ∅ s.orphans
  count : s.orphans.mapOrphanTransactions.size ≤ MAX_ORPHAN_TRANSACTIONS

/-- A stream cannot be read, or AcceptToMemoryPool does not return. -/
def Fails (reason : Failure) : Prop :=
  Stops reason ∨ ∃ what, reason = .exception what

/-- Without missed lookups, the accepted transaction and what it resolves leave
the index without empty entries. -/
theorem Bounded.accepted {tx : CTransaction} {mempool : CTxMemPool} {vMsg : Bytes} (bounded : s.Bounded)
    (accepted : CTxMemPool.Accepted (context 0) s.mempool tx true true mempool)
    (finds : ∀ r, s.resolve context mempool tx.getHash vMsg = .ok r → ∀ hash ∈ r.vWorkQueue,
      ∃ (orphan : UInt256) (vMsg : Bytes), s.orphans.mapOrphanTransactions[orphan]? = some vMsg ∧ Spends vMsg hash) :
    Sat (do
      let r ← s.resolve context mempool tx.getHash vMsg
      let orphans ← r.vEraseQueue.foldlM OrphanMaps.eraseOrphanTx
        { s.orphans with mapOrphanTransactionsByPrev := r.mapOrphanTransactionsByPrev }
      return ((⟨r.mempool, orphans⟩, r.relayed) : TxNode × List (UInt256 × Bytes)))
      (fun result => result.1.Bounded) Fails := by
  have resolved := resolve_sat bounded.indexed accepted vMsg
  cases run : s.resolve context mempool tx.getHash vMsg with
  | error reason =>
      rw [error_bind]
      exact Or.inl (resolved.of_error run)
  | ok r =>
      have resolving := resolved.of_ok run
      have filled : OrphanMaps.Indexed ∅
          { s.orphans with mapOrphanTransactionsByPrev := r.mapOrphanTransactionsByPrev } := by
        refine ⟨resolving.indexed.stored, resolving.indexed.index, fun prev vacant => ?_⟩
        obtain ⟨member, missing⟩ := resolving.indexed.vacant prev vacant
        obtain ⟨orphan, stream, stored, spends⟩ := finds r run prev member
        have listed := (bounded.indexed.index prev orphan stream).mpr ⟨stored, spends⟩
        simp [Multimap.under, missing] at listed
      obtain ⟨orphans, erased, indexed, fewer⟩ := filled.eraseQueue r.vEraseQueue
      rw [ok_bind, erased]
      exact ⟨indexed, Nat.le_trans fewer bounded.count⟩

theorem Bounded.processTx {random : Nat → UInt256} {vRecv : Bytes} (bounded : s.Bounded)
    (finds : s.FindsSpenders context vRecv) :
    Sat (s.processTx context random vRecv) (fun result => result.1.Bounded) Fails := by
  unfold TxNode.processTx
  cases received : readTx vRecv with
  | error reason =>
      rw [error_bind]
      exact Or.inr ((readTx_sat vRecv).of_error received)
  | ok tx =>
      rw [ok_bind]
      cases verdict : s.mempool.acceptToMemoryPool (context 0) tx true true with
      | ok mempool =>
          exact bounded.accepted (.of_acceptToMemoryPool verdict) fun r => finds tx mempool r received verdict
      | error reason =>
          split
          · contradiction
          · refine Sat.bind (?_ : Sat _ (OrphanMaps.Indexed ∅) _) fun orphans indexed => ?_
            · cases added : s.orphans.addOrphanTx (truncateMessage tx vRecv) with
              | error reason => exact Or.inr ((bounded.indexed.added _).of_error added)
              | ok next => exact bounded.indexed.addOrphanTx added
            · obtain ⟨next, count, limited, last, within⟩ :=
                indexed.limitOrphanTxSize random MAX_ORPHAN_TRANSACTIONS
              rw [limited, ok_bind]
              exact ⟨last, within⟩
          · rename_i other
            cases other
            split
            · exact bounded
            · rename_i stops
              exact Or.inl ⟨_, _, _, verdict, Bool.eq_false_iff.mpr stops⟩

end TxNode

end

/-! ## Every sequence of messages -/

namespace OrphanMaps

/-- The transactions that the stored orphans spend from, once for each input. -/
def spentPrevs (orphans : OrphanMaps) : List UInt256 :=
  orphans.mapOrphanTransactions.toList.flatMap fun orphan =>
    match readTx orphan.2 with
    | .ok tx => tx.vin.map (·.prevout.hash)
    | .error _ => []

/-- The index has an entry for exactly the transactions that stored orphans spend
from, and lists exactly these orphans in it; there are few orphans, so both maps
are small. -/
structure Exact (orphans : OrphanMaps) : Prop where
  listed : ∀ prev, (∃ waiting, orphans.mapOrphanTransactionsByPrev[prev]? = some waiting) ↔
    ∃ (hash : UInt256) (vMsg : Bytes), orphans.mapOrphanTransactions[hash]? = some vMsg ∧ Spends vMsg prev
  waiting : ∀ (prev : UInt256) (waiting : Std.ExtTreeMap UInt256 Bytes),
    orphans.mapOrphanTransactionsByPrev[prev]? = some waiting → ∀ (hash : UInt256) (vMsg : Bytes),
      waiting[hash]? = some vMsg ↔ orphans.mapOrphanTransactions[hash]? = some vMsg ∧ Spends vMsg prev
  count : orphans.mapOrphanTransactions.size ≤ MAX_ORPHAN_TRANSACTIONS
  entries : orphans.mapOrphanTransactionsByPrev.size ≤ orphans.spentPrevs.length
  items : ∀ (prev : UInt256) (waiting : Std.ExtTreeMap UInt256 Bytes),
    orphans.mapOrphanTransactionsByPrev[prev]? = some waiting →
      waiting.size ≤ orphans.mapOrphanTransactions.size

theorem mem_spentPrevs {orphans : OrphanMaps} {hash prev : UInt256} {vMsg : Bytes}
    (stored : orphans.mapOrphanTransactions[hash]? = some vMsg) (spends : Spends vMsg prev) :
    prev ∈ orphans.spentPrevs := by
  obtain ⟨tx, read, member⟩ := spends
  refine List.mem_flatMap.mpr ⟨(hash, vMsg), Std.ExtTreeMap.mem_toList_iff_getElem?_eq_some.mpr stored, ?_⟩
  simpa only [read] using member

theorem Indexed.exact [Hashing] {orphans : OrphanMaps} (indexed : Indexed ∅ orphans)
    (count : orphans.mapOrphanTransactions.size ≤ MAX_ORPHAN_TRANSACTIONS) : orphans.Exact := by
  have inside : ∀ (prev : UInt256) (waiting : Std.ExtTreeMap UInt256 Bytes),
      orphans.mapOrphanTransactionsByPrev[prev]? = some waiting → ∀ (hash : UInt256) (vMsg : Bytes),
        waiting[hash]? = some vMsg ↔ orphans.mapOrphanTransactions[hash]? = some vMsg ∧ Spends vMsg prev := by
    intro prev waiting found hash vMsg
    rw [← Multimap.under_of_some found]
    exact indexed.index prev hash vMsg
  have listed : ∀ prev, (∃ waiting, orphans.mapOrphanTransactionsByPrev[prev]? = some waiting) ↔
      ∃ (hash : UInt256) (vMsg : Bytes), orphans.mapOrphanTransactions[hash]? = some vMsg ∧ Spends vMsg prev := by
    intro prev
    constructor
    · rintro ⟨waiting, found⟩
      by_contra none
      refine absurd (indexed.vacant prev ?_) (Set.notMem_empty prev)
      rw [Multimap.Vacant, found, Option.some.injEq]
      refine Std.ExtTreeMap.ext_getElem? fun hash => ?_
      cases item : waiting[hash]? with
      | none => simp
      | some vMsg => exact absurd ⟨hash, vMsg, (inside prev waiting found hash vMsg).mp item⟩ none
    · rintro ⟨hash, vMsg, both⟩
      have item := (indexed.index prev hash vMsg).mpr both
      cases found : orphans.mapOrphanTransactionsByPrev[prev]? with
      | none => simp [Multimap.under, found] at item
      | some waiting => exact ⟨waiting, rfl⟩
  refine ⟨listed, inside, count, ?_, ?_⟩
  · rw [← Std.ExtTreeMap.length_keys]
    refine Std.ExtTreeMap.nodup_keys.length_le_of_subset fun prev member => ?_
    have present := Std.ExtTreeMap.mem_iff_isSome_getElem?.mp (Std.ExtTreeMap.mem_keys.mp member)
    obtain ⟨hash, vMsg, stored, spends⟩ := (listed prev).mp (Option.isSome_iff_exists.mp present)
    exact mem_spentPrevs stored spends
  · intro prev waiting found
    rw [← Std.ExtTreeMap.length_keys, ← Std.ExtTreeMap.length_keys]
    refine Std.ExtTreeMap.nodup_keys.length_le_of_subset fun hash member => ?_
    have present := Std.ExtTreeMap.mem_iff_isSome_getElem?.mp (Std.ExtTreeMap.mem_keys.mp member)
    obtain ⟨vMsg, item⟩ := Option.isSome_iff_exists.mp present
    rw [Std.ExtTreeMap.mem_keys, Std.ExtTreeMap.mem_iff_isSome_getElem?,
      ((inside prev waiting found hash vMsg).mp item).1]
    rfl

end OrphanMaps

namespace TxNode

section

variable [Hashing] [ScriptMachine] {s : TxNode}

/-- The states that `tx` messages which meet a condition lead to from empty
orphan maps, while the rest of the program changes the pool.  A message whose
handling throws leaves the state as it was. -/
inductive Run (meets : (Nat → AcceptContext) → TxNode → Bytes → Prop) : TxNode → Prop
  | start (mempool : CTxMemPool) : Run meets ⟨mempool, .empty⟩
  | other {s : TxNode} (run : Run meets s) (mempool : CTxMemPool) : Run meets { s with mempool }
  | receive {s after : TxNode} {context : Nat → AcceptContext} {random : Nat → UInt256} {vRecv : Bytes}
      {relayed : List (UInt256 × Bytes)} (run : Run meets s) (met : meets context s vRecv)
      (handled : s.processTx context random vRecv = .ok (after, relayed)) : Run meets after

theorem Run.bounded (run : Run FindsSpenders s) : s.Bounded := by
  induction run with
  | start mempool => exact ⟨.empty, Nat.zero_le _⟩
  | other run mempool ih => exact ⟨ih.indexed, ih.count⟩
  | receive run met handled ih => exact (ih.processTx met).of_ok handled

/-- As long as no lookup of the work queue misses, the orphan maps agree. -/
theorem orphan_index_exact (run : Run FindsSpenders s) : s.orphans.Exact :=
  run.bounded.indexed.exact run.bounded.count

end

end TxNode

/-! ## Examples -/

namespace Sample

/-- A transaction that spends `payment` and an unknown output. -/
def tied : CTransaction :=
  { payment with vin := [⟨⟨payment.getHash, 0⟩, [], 0xffffffff⟩, ⟨⟨0x99, 0⟩, [], 0xffffffff⟩] }

/-- What the resolution of `payment` would look up. -/
def looksUp (s : TxNode) : Except Failure (List UInt256) := do
  let mempool ← s.mempool.acceptToMemoryPool context payment true true
  let r ← s.resolve (fun _ => context) mempool payment.getHash (truncateMessage payment payment.serialize)
  return r.vWorkQueue

theorem tied_received : readTx tied.serialize = .ok tied ∧ readTx payment.serialize = .ok payment ∧
    (emptyNode.mempool.acceptToMemoryPool context tied true true).isOk = false := by decide +kernel

theorem tied_stored : (receive emptyNode tied.serialize).map (fun result =>
    (result.1.orphans.mapOrphanTransactions[tied.getHash]?, looksUp result.1,
      (receive result.1 payment.serialize).isOk)) =
    .ok (some tied.serialize, .ok [payment.getHash], true) := by decide +kernel

theorem payment_listed : (receive emptyNode payment.serialize).map (fun result =>
    (result.1.orphans.mapOrphanTransactionsByPrev[payment.getHash]?.isSome,
      result.1.orphans.mapOrphanTransactions.isEmpty)) = .ok (true, true) := by decide +kernel

theorem tied_spends : Spends tied.serialize payment.getHash :=
  ⟨tied, tied_received.1, by decide +kernel⟩

end Sample

namespace TxNode

open Sample

theorem tied_findsSpenders : FindsSpenders (fun _ => context) emptyNode tied.serialize := by
  intro tx mempool r received verdict
  rw [tied_received.1, Except.ok.injEq] at received
  subst received
  have refused := tied_received.2.2
  rw [verdict] at refused
  simp [Except.isOk, Except.toBool] at refused

theorem payment_findsSpenders {s : TxNode} (looks : looksUp s = .ok [payment.getHash])
    (stored : s.orphans.mapOrphanTransactions[tied.getHash]? = some tied.serialize) :
    FindsSpenders (fun _ => context) s payment.serialize := by
  intro tx mempool r received verdict resolved hash member
  rw [tied_received.2.1, Except.ok.injEq] at received
  subst received
  simp only [looksUp, verdict, ok_bind, resolved, pure_eq_ok] at looks
  rw [looks, List.mem_singleton] at member
  subst member
  exact ⟨tied.getHash, tied.serialize, stored, tied_spends⟩

/-- An orphan waits for `payment` and for something else when `payment` comes. -/
theorem orphan_index_exact_sample : ∃ waiting after relayed more,
    receive emptyNode tied.serialize = .ok (waiting, relayed) ∧
      receive waiting payment.serialize = .ok (after, more) ∧ after.orphans.Exact := by
  have stored := tied_stored
  cases first : receive emptyNode tied.serialize with
  | error reason =>
      rw [first] at stored
      contradiction
  | ok result =>
      obtain ⟨waiting, relayed⟩ := result
      rw [first] at stored
      simp only [Except.map, Except.ok.injEq, Prod.mk.injEq] at stored
      obtain ⟨orphan, looks, returns⟩ := stored
      obtain ⟨⟨after, more⟩, second⟩ := ok_of_isOk returns
      have one : Run FindsSpenders waiting := (Run.start CTxMemPool.empty).receive tied_findsSpenders first
      have two : Run FindsSpenders after := one.receive (payment_findsSpenders looks orphan) second
      exact ⟨waiting, after, relayed, more, rfl, second, orphan_index_exact two⟩

/-- The lookup of a transaction that no orphan spends from leaves an entry. -/
theorem orphan_index_leak : ∃ s, Run (fun _ _ _ => True) s ∧ ¬ s.orphans.Exact := by
  have listed := payment_listed
  cases handled : receive emptyNode payment.serialize with
  | error reason =>
      rw [handled] at listed
      contradiction
  | ok result =>
      obtain ⟨after, relayed⟩ := result
      rw [handled] at listed
      simp only [Except.map, Except.ok.injEq, Prod.mk.injEq] at listed
      obtain ⟨present, empty⟩ := listed
      refine ⟨after, (Run.start CTxMemPool.empty).receive trivial handled, fun exact => ?_⟩
      obtain ⟨hash, vMsg, stored, _⟩ := (exact.listed _).mp (Option.isSome_iff_exists.mp present)
      rw [Std.ExtTreeMap.isEmpty_iff] at empty
      simp [empty] at stored

end TxNode

end BitCrystal
