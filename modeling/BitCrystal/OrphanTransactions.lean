import BitCrystal.BlockSerialize
import BitCrystal.Data.Multimap
import BitCrystal.MempoolRuns

namespace BitCrystal

open Data

/-! # The handler of `tx` messages -/

/-- The maximum number of orphan transactions kept in memory. -/
def MAX_ORPHAN_TRANSACTIONS : Nat := MAX_BLOCK_SIZE / 100

/-- `stream >> tx`, which throws when the bytes do not hold a transaction. -/
def readTx (stream : Bytes) : Except Failure CTransaction :=
  match CTransaction.unserialize stream with
  | none => .error (.exception "CDataStream::read() : end of data")
  | some (tx, _) => .ok tx

/-- `vMsg`: the received bytes, truncated to the size of the transaction in them. -/
def truncateMessage (tx : CTransaction) (vRecv : Bytes) : Bytes :=
  if tx.getSerializeSize < vRecv.length then vRecv.take tx.getSerializeSize else vRecv

/-! ## The orphan maps -/

/-- The two maps of orphan transactions; a pointer to a stream is its bytes. -/
structure OrphanMaps where
  mapOrphanTransactions : Std.ExtTreeMap UInt256 Bytes
  mapOrphanTransactionsByPrev : Multimap UInt256 UInt256 Bytes

namespace OrphanMaps

def empty : OrphanMaps := ⟨∅, ∅⟩

section

variable [Hashing]

def addOrphanTx (orphans : OrphanMaps) (vMsg : Bytes) : Except Failure OrphanMaps := do
  let tx ← readTx vMsg
  if orphans.mapOrphanTransactions.contains tx.getHash then return orphans
  else if 5000 < vMsg.length then return orphans
  else return {
    mapOrphanTransactions := orphans.mapOrphanTransactions.insert tx.getHash vMsg
    mapOrphanTransactionsByPrev := (tx.vin.map (·.prevout.hash)).foldl (Multimap.link tx.getHash vMsg)
      orphans.mapOrphanTransactionsByPrev }

def eraseOrphanTx (orphans : OrphanMaps) (hash : UInt256) : Except Failure OrphanMaps :=
  match orphans.mapOrphanTransactions[hash]? with
  | none => .ok orphans
  | some vMsg => do
      let tx ← readTx vMsg
      return {
        mapOrphanTransactions := orphans.mapOrphanTransactions.erase hash
        mapOrphanTransactionsByPrev := (tx.vin.map (·.prevout.hash)).foldl (Multimap.unlink hash)
          orphans.mapOrphanTransactionsByPrev }

/-- The first orphan at or above a hash, or else the first one. -/
def orphanAt (orphans : OrphanMaps) (randomhash : UInt256) : Option UInt256 :=
  (orphans.mapOrphanTransactions.keys.find? fun hash => randomhash ≤ hash).or
    orphans.mapOrphanTransactions.keys.head?

/-- The loop of LimitOrphanTxSize; `random` are the answers of GetRandHash. -/
def evictOrphans (random : Nat → UInt256) (nMaxOrphans : Nat) :
    Nat → Nat → OrphanMaps → Except Failure (OrphanMaps × Nat)
  | 0, _, _ => .error .endless
  | room + 1, nEvicted, orphans =>
      if nMaxOrphans < orphans.mapOrphanTransactions.size then do
        let hash ← expect (orphans.orphanAt (random nEvicted)) (.undefined "LimitOrphanTxSize")
        let orphans ← orphans.eraseOrphanTx hash
        evictOrphans random nMaxOrphans room (nEvicted + 1) orphans
      else .ok (orphans, nEvicted)

def limitOrphanTxSize (random : Nat → UInt256) (nMaxOrphans : Nat) (orphans : OrphanMaps) :
    Except Failure (OrphanMaps × Nat) :=
  evictOrphans random nMaxOrphans (orphans.mapOrphanTransactions.size + 1) 0 orphans

end

end OrphanMaps

/-! ## The handler -/

/-- What the handler changes. -/
structure TxNode where
  mempool : CTxMemPool
  orphans : OrphanMaps

/-- The local variables of the handler once a transaction has been accepted;
`relayed` are the calls of RelayTransaction, `calls` counts those of
AcceptToMemoryPool. -/
structure Resolution where
  mempool : CTxMemPool
  mapOrphanTransactionsByPrev : Multimap UInt256 UInt256 Bytes
  vWorkQueue : List UInt256
  vEraseQueue : List UInt256
  relayed : List (UInt256 × Bytes)
  calls : Nat

section

variable [Hashing] [ScriptMachine]

/-- One turn of the inner loop, for an orphan that depends on `hashPrev`. -/
def resolveOrphan (context : Nat → AcceptContext) (r : Resolution) (orphan : UInt256 × Bytes) :
    Except Failure Resolution := do
  let tx ← readTx orphan.2
  match r.mempool.acceptToMemoryPool (context r.calls) tx true true with
  | .ok mempool =>
      return { r with
        mempool
        vWorkQueue := r.vWorkQueue ++ [tx.getHash]
        vEraseQueue := r.vEraseQueue ++ [tx.getHash]
        relayed := r.relayed ++ [(tx.getHash, orphan.2)]
        calls := r.calls + 1 }
  | .error .missingInputs => return { r with calls := r.calls + 1 }
  | .error reason =>
      -- invalid or too-little-fee orphan
      if reason.returnsFalse then
        return { r with vEraseQueue := r.vEraseQueue ++ [tx.getHash], calls := r.calls + 1 }
      else .error reason

/-- The loop over the work queue, from its element `i` on. -/
def resolveQueue (context : Nat → AcceptContext) : Nat → Nat → Resolution → Except Failure Resolution
  | 0, _, _ => .error .endless
  | room + 1, i, r =>
      match r.vWorkQueue[i]? with
      | none => .ok r
      | some hashPrev => do
          -- the lookup by operator[] makes an entry
          let touched := { r with
            mapOrphanTransactionsByPrev := r.mapOrphanTransactionsByPrev.touch hashPrev }
          let r ← (r.mapOrphanTransactionsByPrev.under hashPrev).toList.foldlM (resolveOrphan context) touched
          resolveQueue context room (i + 1) r

/-- Recursively process the orphans that depend on an accepted transaction; each
turn but the last takes a transaction that has just entered the pool. -/
def TxNode.resolve (context : Nat → AcceptContext) (s : TxNode) (mempool : CTxMemPool) (hash : UInt256)
    (vMsg : Bytes) : Except Failure Resolution :=
  resolveQueue context (s.orphans.mapOrphanTransactions.size + 2) 0
    ⟨mempool, s.orphans.mapOrphanTransactionsByPrev, [hash], [hash], [(hash, vMsg)], 1⟩

/-- ProcessMessage for a `tx` message, with the streams it passes to
RelayTransaction. -/
def TxNode.processTx (context : Nat → AcceptContext) (random : Nat → UInt256) (s : TxNode) (vRecv : Bytes) :
    Except Failure (TxNode × List (UInt256 × Bytes)) := do
  let tx ← readTx vRecv
  let vMsg := truncateMessage tx vRecv
  match s.mempool.acceptToMemoryPool (context 0) tx true true with
  | .ok mempool =>
      let r ← s.resolve context mempool tx.getHash vMsg
      let orphans ← r.vEraseQueue.foldlM OrphanMaps.eraseOrphanTx
        { s.orphans with mapOrphanTransactionsByPrev := r.mapOrphanTransactionsByPrev }
      return (⟨r.mempool, orphans⟩, r.relayed)
  | .error .missingInputs =>
      let orphans ← s.orphans.addOrphanTx vMsg
      let (orphans, _) ← orphans.limitOrphanTxSize random MAX_ORPHAN_TRANSACTIONS
      return ({ s with orphans }, [])
  | .error reason => if reason.returnsFalse then return (s, []) else .error reason

end

/-! ## The truncated message -/

theorem readTx_eq_ok {stream : Bytes} {tx : CTransaction} :
    readTx stream = .ok tx ↔ ∃ rest, CTransaction.unserialize stream = some (tx, rest) := by
  unfold readTx
  cases read : CTransaction.unserialize stream with
  | none => simp
  | some result => simp [Prod.ext_iff]

/-- The truncated message holds the transaction, and nothing else, exactly when
the message begins with the encoding that Serialize writes. -/
theorem truncateMessage_reads_iff {vRecv rest : Bytes} {tx : CTransaction}
    (received : CTransaction.unserialize vRecv = some (tx, rest)) :
    CTransaction.unserialize (truncateMessage tx vRecv) = some (tx, []) ↔ tx.serialize <+: vRecv := by
  have size := tx.serialize_length
  constructor
  · intro read
    obtain ⟨used, whole, _, _, shortest⟩ := CTransaction.decodes read
    rw [List.append_nil] at whole
    subst whole
    have bound := shortest.length
    have equal := shortest.equal
    unfold truncateMessage at bound equal
    split at bound
    · rename_i longer
      rw [if_pos longer, List.length_take_of_le (by omega)] at equal
      rw [← equal size.symm]
      exact List.take_prefix _ _
    · rename_i short
      rw [if_neg short] at equal
      rw [← equal (by omega)]
  · rintro ⟨trailing, split⟩
    have truncated : truncateMessage tx vRecv = tx.serialize := by
      unfold truncateMessage
      rw [← split, List.length_append, ← size]
      split_ifs with longer
      · exact List.take_left
      · have none : trailing = [] := List.eq_nil_of_length_eq_zero (by omega)
        rw [none, List.append_nil]
    obtain ⟨used, _, sized, uncommented, _⟩ := CTransaction.decodes received
    have reads := sized.reads
    rw [uncommented] at reads
    rw [truncated]
    exact reads.whole

/-! ## What is handed over -/

section

variable [Hashing] [ScriptMachine] {context : Nat → AcceptContext} {random : Nat → UInt256} {s after : TxNode}
  {vRecv : Bytes} {tx : CTransaction} {relayed : List (UInt256 × Bytes)}

theorem resolveOrphan_relayed {r next : Resolution} {orphan : UInt256 × Bytes}
    (run : resolveOrphan context r orphan = .ok next) : r.relayed <+: next.relayed := by
  simp only [resolveOrphan, bind_eq_ok] at run
  obtain ⟨tx, _, run⟩ := run
  split at run
  · cases run
    exact List.prefix_append _ _
  · cases run
    exact List.prefix_refl _
  · split at run
    · cases run
      exact List.prefix_refl _
    · contradiction

theorem resolveQueue_relayed {room i : Nat} {r next : Resolution} (run : resolveQueue context room i r = .ok next) :
    r.relayed <+: next.relayed := by
  induction room generalizing i r with
  | zero => contradiction
  | succ room ih =>
      unfold resolveQueue at run
      split at run
      · cases run
        exact List.prefix_refl _
      · obtain ⟨between, turns, rest⟩ := bind_eq_ok.mp run
        have chain := foldlM_relation (fun _ (state last : Resolution) => state.relayed <+: last.relayed)
          (fun state => List.prefix_refl _)
          (fun orphan _ state next last (step : resolveOrphan context state orphan = .ok next) later =>
            (resolveOrphan_relayed step).trans later) turns
        exact chain.trans (ih rest)

omit [Hashing] [ScriptMachine] in
theorem OrphanMaps.eraseOrphanTx_subset {orphans next : OrphanMaps} {hash : UInt256}
    (run : orphans.eraseOrphanTx hash = .ok next) {other : UInt256} {vMsg : Bytes}
    (stored : next.mapOrphanTransactions[other]? = some vMsg) :
    orphans.mapOrphanTransactions[other]? = some vMsg := by
  unfold OrphanMaps.eraseOrphanTx at run
  split at run
  · cases run
    exact stored
  · obtain ⟨tx, _, done⟩ := bind_eq_ok.mp run
    cases done
    simp only [Std.ExtTreeMap.getElem?_erase, Std.compare_eq_iff_eq] at stored
    split at stored
    · contradiction
    · exact stored

omit [Hashing] [ScriptMachine] in
theorem OrphanMaps.evictOrphans_subset {nMaxOrphans room nEvicted count : Nat} {orphans next : OrphanMaps}
    (run : orphans.evictOrphans random nMaxOrphans room nEvicted = .ok (next, count)) {hash : UInt256} {vMsg : Bytes}
    (stored : next.mapOrphanTransactions[hash]? = some vMsg) :
    orphans.mapOrphanTransactions[hash]? = some vMsg := by
  induction room generalizing orphans nEvicted with
  | zero => contradiction
  | succ room ih =>
      unfold OrphanMaps.evictOrphans at run
      split at run
      · simp only [bind_eq_ok] at run
        obtain ⟨victim, _, between, erased, rest⟩ := run
        exact eraseOrphanTx_subset erased (ih rest)
      · cases run
        exact stored

omit [ScriptMachine] in
theorem OrphanMaps.addOrphanTx_cases {orphans next : OrphanMaps} {vMsg : Bytes}
    (run : orphans.addOrphanTx vMsg = .ok next) :
    next = orphans ∨ ∃ tx, readTx vMsg = .ok tx ∧ orphans.mapOrphanTransactions[tx.getHash]? = none ∧
      next = ⟨orphans.mapOrphanTransactions.insert tx.getHash vMsg, (tx.vin.map (·.prevout.hash)).foldl
        (Multimap.link tx.getHash vMsg) orphans.mapOrphanTransactionsByPrev⟩ := by
  simp only [OrphanMaps.addOrphanTx, bind_eq_ok] at run
  obtain ⟨tx, read, run⟩ := run
  split_ifs at run with known long
  · exact Or.inl (Except.ok.inj run).symm
  · exact Or.inl (Except.ok.inj run).symm
  · refine Or.inr ⟨tx, read, ?_, (Except.ok.inj run).symm⟩
    exact CTxMemPool.contains_eq_false_iff.mp (Bool.eq_false_iff.mpr known)

theorem TxNode.processTx_hands_over (received : readTx vRecv = .ok tx)
    (run : s.processTx context random vRecv = .ok (after, relayed)) :
    (relayed = [] ∨ ∃ more, relayed = (tx.getHash, truncateMessage tx vRecv) :: more) ∧
      ∀ (hash : UInt256) (vMsg : Bytes), after.orphans.mapOrphanTransactions[hash]? = some vMsg →
        s.orphans.mapOrphanTransactions[hash]? = some vMsg ∨ vMsg = truncateMessage tx vRecv := by
  simp only [TxNode.processTx, received, ok_bind] at run
  split at run
  · obtain ⟨r, resolved, rest⟩ := bind_eq_ok.mp run
    obtain ⟨orphans, erased, done⟩ := bind_eq_ok.mp rest
    cases done
    refine ⟨Or.inr ?_, fun hash vMsg stored => Or.inl ?_⟩
    · obtain ⟨more, whole⟩ := resolveQueue_relayed resolved
      exact ⟨more, whole.symm⟩
    · have subset := foldlM_relation (fun _ (state last : OrphanMaps) =>
          last.mapOrphanTransactions[hash]? = some vMsg → state.mapOrphanTransactions[hash]? = some vMsg)
        (fun _ found => found)
        (fun hash _ state next last (step : state.eraseOrphanTx hash = .ok next) later found =>
          OrphanMaps.eraseOrphanTx_subset step (later found)) erased
      exact subset stored
  · obtain ⟨added, adds, rest⟩ := bind_eq_ok.mp run
    obtain ⟨⟨orphans, count⟩, limited, done⟩ := bind_eq_ok.mp rest
    cases done
    refine ⟨Or.inl rfl, fun hash vMsg stored => ?_⟩
    have found := OrphanMaps.evictOrphans_subset limited stored
    rcases OrphanMaps.addOrphanTx_cases adds with rfl | ⟨other, _, _, rfl⟩
    · exact Or.inl found
    · simp only [Std.ExtTreeMap.getElem?_insert, Std.compare_eq_iff_eq] at found
      split at found
      · exact Or.inr (Option.some.inj found).symm
      · exact Or.inl found
  · split at run
    · cases run
      exact ⟨Or.inl rfl, fun _ _ stored => Or.inl stored⟩
    · contradiction

/-- The message that is stored with an orphan or relayed holds the received
transaction, and nothing else, exactly when the received bytes begin with the
encoding that Serialize writes. -/
theorem TxNode.processTx_normalises {rest : Bytes} (received : CTransaction.unserialize vRecv = some (tx, rest)) :
    (CTransaction.unserialize (truncateMessage tx vRecv) = some (tx, []) ↔ tx.serialize <+: vRecv) ∧
      ∀ (context : Nat → AcceptContext) (random : Nat → UInt256) (s after : TxNode)
        (relayed : List (UInt256 × Bytes)), s.processTx context random vRecv = .ok (after, relayed) →
          (relayed = [] ∨ ∃ more, relayed = (tx.getHash, truncateMessage tx vRecv) :: more) ∧
            ∀ (hash : UInt256) (vMsg : Bytes), after.orphans.mapOrphanTransactions[hash]? = some vMsg →
              s.orphans.mapOrphanTransactions[hash]? = some vMsg ∨ vMsg = truncateMessage tx vRecv :=
  ⟨truncateMessage_reads_iff received, fun _ _ _ _ _ => processTx_hands_over (readTx_eq_ok.mpr ⟨rest, received⟩)⟩

end

/-! ## Examples -/

namespace Sample

def emptyNode : TxNode := ⟨.empty, .empty⟩

/-- The handler, with the same surroundings for every call. -/
def receive (s : TxNode) (vRecv : Bytes) : Except Failure (TxNode × List (UInt256 × Bytes)) :=
  s.processTx (fun _ => context) (fun _ => 0) vRecv

/-- `payment`, with the number of its inputs in three bytes. -/
def widePayment : Bytes :=
  payment.serialize.take 4 ++ [0xfd, 0x01, 0x00] ++ payment.serialize.drop 5

end Sample

namespace TxNode

open Sample

theorem processTx_normalises_sample :
    CTransaction.unserialize (payment.serialize ++ [0x2a]) = some (payment, [0x2a]) ∧
      (CTransaction.unserialize (truncateMessage payment (payment.serialize ++ [0x2a])) = some (payment, []) ↔
        payment.serialize <+: payment.serialize ++ [0x2a]) := by
  have received : CTransaction.unserialize (payment.serialize ++ [0x2a]) = some (payment, [0x2a]) := by
    decide
  exact ⟨received, (processTx_normalises received).1⟩

/-- A peer can send an accepted transaction so that what is relayed cannot be read. -/
theorem processTx_relays_truncated : CTransaction.unserialize widePayment = some (payment, []) ∧
    (receive emptyNode widePayment).map (fun result => result.2.map fun relayed =>
      (relayed.1, CTransaction.unserialize relayed.2)) = .ok [(payment.getHash, none)] := by decide +kernel

end TxNode

end BitCrystal
