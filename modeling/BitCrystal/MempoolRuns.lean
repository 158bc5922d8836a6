import BitCrystal.Disconnect
import BitCrystal.MempoolIndex

namespace BitCrystal

open Data Relation

/-! # Runs of the memory pool -/

theorem CTransaction.equal_vin {left right : CTransaction} (same : left.equal right = true) :
    left.vin = right.vin := by
  simp only [equal, Bool.and_eq_true, decide_eq_true_eq] at same
  exact same.1.1.2

namespace CTxMemPool

section

variable [ScriptMachine] [Hashing]

/-- What is known once accept has put a transaction into the pool. -/
structure Accepted (context : AcceptContext) (pool : CTxMemPool) (tx : CTransaction)
    (fCheckInputs fLimitFree : Bool) (next : CTxMemPool) : Prop where
  checked : tx.Checked
  loose : tx.isCoinBase = false
  fresh : pool.mapTx[tx.getHash]? = none
  free : ∀ outpoint ∈ tx.prevouts, pool.mapNextTx[outpoint]? = none
  inputs : fCheckInputs = true → pool.acceptInputs context tx fLimitFree = .ok ()
  next_eq : next = pool.addUnchecked tx.getHash tx

theorem Accepted.of_accept {context : AcceptContext} {pool next : CTxMemPool} {tx : CTransaction}
    {fCheckInputs fLimitFree : Bool} (run : pool.accept context tx fCheckInputs fLimitFree = .ok next) :
    Accepted context pool tx fCheckInputs fLimitFree next := by
  simp only [accept, bind_eq_ok, require_eq_ok, exists_const, Bool.not_eq_true'] at run
  obtain ⟨_, checked, loose, _, _, fresh, free, rest⟩ := run
  have absent : ∀ outpoint ∈ tx.prevouts, pool.mapNextTx[outpoint]? = none := by
    intro outpoint member
    obtain ⟨txin, input, rfl⟩ := List.mem_map.mp member
    have unspent := List.all_eq_true.mp free txin input
    exact contains_eq_false_iff.mp (by simpa using unspent)
  have added : (fCheckInputs = true → pool.acceptInputs context tx fLimitFree = .ok ()) ∧
      next = pool.addUnchecked tx.getHash tx := by
    cases fCheckInputs with
    | true =>
        simp only [if_true, bind_eq_ok, pure_eq_ok] at rest
        obtain ⟨_, inputs, rfl⟩ := rest
        exact ⟨fun _ => inputs, rfl⟩
    | false =>
        simp only [Bool.false_eq_true, if_false, pure_eq_ok] at rest
        exact ⟨fun impossible => Bool.noConfusion impossible, rest.symm⟩
  exact ⟨.of_checkTransaction checked, loose, contains_eq_false_iff.mp fresh, absent, added.1, added.2⟩

theorem Accepted.of_acceptToMemoryPool {context : AcceptContext} {pool next : CTxMemPool} {tx : CTransaction}
    {fCheckInputs fLimitFree : Bool} (run : pool.acceptToMemoryPool context tx fCheckInputs fLimitFree = .ok next) :
    Accepted context pool tx fCheckInputs fLimitFree next := by
  unfold acceptToMemoryPool at run
  split at run
  · contradiction
  · exact .of_accept run

theorem Exact.accept {context : AcceptContext} {pool next : CTxMemPool} {tx : CTransaction}
    {fCheckInputs fLimitFree : Bool} (exact : pool.Exact)
    (accepted : Accepted context pool tx fCheckInputs fLimitFree next) : next.Exact := by
  rw [accepted.next_eq]
  exact exact.addUnchecked accepted.checked.inputs_nodup accepted.fresh accepted.free

end

/-! ## Conflicts -/

section

variable [Hashing]

/-- The transactions that spend an outpoint and are not equal to `tx`, with all
their descendants. -/
def conflictsAt (pool : CTxMemPool) (tx : CTransaction) (outpoint : COutPoint) : Set UInt256 :=
  {key | ∃ (hash : UInt256) (other : CTransaction), pool.mapTx[hash]? = some other ∧
    outpoint ∈ other.prevouts ∧ other.equal tx = false ∧ key ∈ descendants pool.Child hash}

def conflicts (pool : CTxMemPool) (tx : CTransaction) (outpoints : List COutPoint) : Set UInt256 :=
  {key | ∃ outpoint ∈ outpoints, key ∈ pool.conflictsAt tx outpoint}

omit [Hashing] in
theorem conflicts_closed (pool : CTxMemPool) (tx : CTransaction) (outpoints : List COutPoint) :
    Closed pool.Child (pool.conflicts tx outpoints) := by
  rintro parent ⟨outpoint, member, hash, other, stored, spends, different, path⟩ child edge
  exact ⟨outpoint, member, hash, other, stored, spends, different, descendants_closed parent path child edge⟩

theorem removeConflict_sat {pool : CTxMemPool} (exact : pool.Exact) (tx : CTransaction) (txin : CTxIn) :
    Sat (removeConflict tx pool txin)
      (fun after => Removed pool after (pool.conflictsAt tx txin.prevout))
      (fun _ => ¬ Acyclic pool.Child) := by
  unfold removeConflict
  cases found : pool.mapNextTx[txin.prevout]? with
  | none =>
      have nothing : pool.conflictsAt tx txin.prevout = ∅ := by
        apply Set.eq_empty_of_forall_notMem
        rintro key ⟨hash, other, stored, spends, _⟩
        obtain ⟨n, input⟩ := List.mem_iff_getElem?.mp spends
        rw [(exact.index _ ⟨hash, n⟩).mpr ⟨other, stored, input⟩] at found
        contradiction
      rw [nothing]
      exact Removed.nothing exact
  | some inPoint =>
      obtain ⟨txConflict, lookup, input⟩ := (exact.index _ _).mp found
      have sole : ∀ (hash : UInt256) (other : CTransaction), pool.mapTx[hash]? = some other →
          txin.prevout ∈ other.prevouts → hash = inPoint.ptx ∧ other = txConflict := by
        intro hash other stored spends
        obtain ⟨n, also⟩ := List.mem_iff_getElem?.mp spends
        have own : pool.Spends ⟨hash, n⟩ txin.prevout := ⟨other, stored, also⟩
        have same := exact.unique own ⟨txConflict, lookup, input⟩
        obtain rfl : hash = inPoint.ptx := congrArg CInPoint.ptx same
        rw [stored] at lookup
        exact ⟨rfl, Option.some.inj lookup⟩
      simp only [lookup, expect, ok_bind]
      apply Sat.ite
      · intro same
        have nothing : pool.conflictsAt tx txin.prevout = ∅ := by
          apply Set.eq_empty_of_forall_notMem
          rintro key ⟨hash, other, stored, spends, different, _⟩
          rw [(sole hash other stored spends).2, same] at different
          contradiction
        rw [nothing]
        exact Removed.nothing exact
      · intro different
        have all : pool.conflictsAt tx txin.prevout = descendants pool.Child txConflict.getHash := by
          rw [exact.keyed _ _ lookup]
          apply Set.ext
          intro key
          constructor
          · rintro ⟨hash, other, stored, spends, _, path⟩
            rw [(sole hash other stored spends).1] at path
            exact path
          · intro path
            exact ⟨_, txConflict, lookup, List.mem_of_getElem? input, Bool.eq_false_iff.mpr different, path⟩
        rw [all]
        exact remove_sat exact (exact.agrees lookup) true

theorem Removed.descendants_iff {before between : CTxMemPool} {gone : Set UInt256}
    (removed : Removed before between gone) (closed : Closed before.Child gone) {start key : UInt256}
    (stays : key ∉ gone) :
    key ∈ descendants between.Child start ↔ key ∈ descendants before.Child start := by
  constructor
  · intro path
    exact descendants_mono (fun parent child edge => (removed.child.mp edge).2.2) path
  · intro path
    induction path with
    | refl => exact start_mem_descendants
    | @tail parent child path edge ih =>
        have above : parent ∉ gone := fun member => stays (closed parent member child edge)
        exact descendants_closed parent (ih above) child (removed.child.mpr ⟨above, stays, edge⟩)

theorem Removed.conflicts {pool between after : CTxMemPool} {tx : CTransaction} {done : List COutPoint}
    {outpoint : COutPoint} (removed : Removed pool between (pool.conflicts tx done))
    (next : Removed between after (between.conflictsAt tx outpoint)) :
    Removed pool after (pool.conflicts tx (done ++ [outpoint])) := by
  have closed := pool.conflicts_closed tx done
  have both : pool.conflicts tx (done ++ [outpoint]) =
      pool.conflicts tx done ∪ between.conflictsAt tx outpoint := by
    apply Set.ext
    intro key
    constructor
    · rintro ⟨spent, member, conflict⟩
      by_cases early : key ∈ pool.conflicts tx done
      · exact Or.inl early
      · rcases List.mem_append.mp member with before | now
        · exact absurd ⟨spent, before, conflict⟩ early
        · obtain rfl := List.mem_singleton.mp now
          obtain ⟨hash, other, stored, spends, different, path⟩ := conflict
          have stays : hash ∉ pool.conflicts tx done :=
            fun inside => early (descendants_subset_of_closed inside closed path)
          exact Or.inr ⟨hash, other, (removed.kept hash stays).trans stored, spends, different,
            (removed.descendants_iff closed early).mpr path⟩
    · rintro (⟨spent, member, conflict⟩ | ⟨hash, other, stored, spends, different, path⟩)
      · exact ⟨spent, List.mem_append_left _ member, conflict⟩
      · refine ⟨outpoint, List.mem_append_right _ List.mem_cons_self, hash, other,
          (removed.of_mem stored).2, spends, different, ?_⟩
        exact descendants_mono (fun parent child edge => (removed.child.mp edge).2.2) path
  rw [both]
  exact removed.trans next

/-- removeConflicts removes what spends an input of `tx` and is not equal to `tx`
as far as `operator==` sees, with all descendants. -/
theorem removeConflicts_sat {pool : CTxMemPool} (exact : pool.Exact) (tx : CTransaction) :
    Sat (pool.removeConflicts tx) (fun after => Removed pool after (pool.conflicts tx tx.prevouts))
      (fun _ => ¬ Acyclic pool.Child) := by
  have loop : Sat (tx.vin.foldlM (removeConflict tx) pool) _ fun _ => ¬ Acyclic pool.Child := Sat.foldlM
    (fun between rest => ∃ done, done ++ rest.map CTxIn.prevout = tx.prevouts ∧
      Removed pool between (pool.conflicts tx done)) ?_ tx.vin pool ⟨[], rfl, ?_⟩
  · refine loop.weaken fun after finished => ?_
    obtain ⟨done, all, removed⟩ := finished
    rw [List.map_nil, List.append_nil] at all
    rw [← all]
    exact removed
  · rintro between txin rest ⟨done, all, removed⟩
    have step := removeConflict_sat removed.exact tx txin
    cases run : removeConflict tx between txin with
    | error reason =>
        intro acyclic
        exact step.of_error run (acyclic.mono fun parent child edge => (removed.child.mp edge).2.2)
    | ok after =>
        refine ⟨done ++ [txin.prevout], ?_, removed.conflicts (step.of_ok run)⟩
        rw [← all, List.append_assoc]
        rfl
  · have nothing : pool.conflicts tx [] = ∅ := by
      apply Set.eq_empty_of_forall_notMem
      rintro key ⟨_, member, _⟩
      contradiction
    rw [nothing]
    exact Removed.nothing exact

theorem Removed.equal_of_conflicts {pool after : CTxMemPool} {tx : CTransaction}
    (removed : Removed pool after (pool.conflicts tx tx.prevouts)) {hash : UInt256} {other : CTransaction}
    (stored : after.mapTx[hash]? = some other) {outpoint : COutPoint} (spends : outpoint ∈ other.prevouts)
    (also : outpoint ∈ tx.prevouts) : other.equal tx = true := by
  obtain ⟨stays, before⟩ := removed.of_mem stored
  by_contra different
  exact stays ⟨outpoint, also, hash, other, before, spends, Bool.eq_false_iff.mpr different,
    start_mem_descendants⟩

/-- No other transaction of the pool spends an outpoint that `tx` spends. -/
def ConflictFree (pool : CTxMemPool) (tx : CTransaction) : Prop :=
  ∀ (hash : UInt256) (other : CTransaction), pool.mapTx[hash]? = some other → hash ≠ tx.getHash →
    ∀ outpoint ∈ tx.prevouts, outpoint ∉ other.prevouts

/-- A transaction of the pool that `operator==` does not tell from `tx` is the
only spender of the inputs of `tx`, so nothing is removed. -/
theorem removeConflicts_of_equal {pool : CTxMemPool} (exact : pool.Exact) {tx other : CTransaction}
    {hash : UInt256} (stored : pool.mapTx[hash]? = some other) (same : other.equal tx = true) :
    pool.removeConflicts tx = .ok pool := by
  have turn : ∀ txin ∈ tx.vin, removeConflict tx pool txin = .ok pool := by
    intro txin member
    obtain ⟨n, input⟩ := List.mem_iff_getElem?.mp member
    have spends : pool.Spends ⟨hash, n⟩ txin.prevout :=
      ⟨other, stored, by simp [CTransaction.prevouts, CTransaction.equal_vin same, input]⟩
    have found := (exact.index _ _).mpr spends
    simp only [removeConflict, found, stored, expect, ok_bind, same, if_true]
    rfl
  unfold removeConflicts
  generalize tx.vin = inputs at turn ⊢
  induction inputs with
  | nil => rfl
  | cons txin rest ih =>
      rw [List.foldlM_cons, turn txin List.mem_cons_self, ok_bind]
      exact ih fun later member => turn later (List.mem_cons_of_mem txin member)

/-- removeConflicts returns in an acyclic pool, and it leaves no conflict exactly
when `operator==` finds no transaction equal to `tx` that has another hash. -/
theorem removeConflicts_conflictFree_iff {pool : CTxMemPool} (exact : pool.Exact) (tx : CTransaction) :
    (∀ after, pool.removeConflicts tx = .ok after →
      (after.ConflictFree tx ↔
        ∀ (hash : UInt256) (other : CTransaction), pool.mapTx[hash]? = some other →
          other.equal tx = true → tx.vin ≠ [] →
          hash = tx.getHash)) ∧
    (Acyclic pool.Child → ∃ after, pool.removeConflicts tx = .ok after) := by
  have sat := removeConflicts_sat exact tx
  constructor
  · intro after run
    constructor
    · intro conflictFree hash other stored same inputs
      rw [removeConflicts_of_equal exact stored same] at run
      cases run
      by_contra different
      obtain ⟨txin, member⟩ := List.exists_mem_of_ne_nil _ inputs
      have spent : txin.prevout ∈ tx.prevouts := List.mem_map_of_mem member
      apply conflictFree hash other stored different txin.prevout spent
      rw [CTransaction.prevouts, CTransaction.equal_vin same]
      exact spent
    · intro agrees hash other stored different outpoint spent also
      have removed := sat.of_ok run
      have same := removed.equal_of_conflicts stored also spent
      have inputs : tx.vin ≠ [] := by
        intro none
        rw [CTransaction.prevouts, none] at spent
        contradiction
      exact different (agrees hash other (removed.of_mem stored).2 same inputs)
  · intro acyclic
    cases run : pool.removeConflicts tx with
    | ok after => exact ⟨after, rfl⟩
    | error reason => exact absurd acyclic (sat.of_error run)

end

/-! ## Every sequence of calls -/

section

variable [Hashing]

/-- Transactions with different bytes have different hashes. -/
def CollisionFree (occurring : Set CTransaction) : Prop :=
  ∀ left ∈ occurring, ∀ right ∈ occurring, left.getHash = right.getHash →
    left.serialize = right.serialize

/-- An exact pool of checked transactions of `occurring`. -/
structure Sound (occurring : Set CTransaction) (pool : CTxMemPool) : Prop where
  exact : pool.Exact
  stored : ∀ (hash : UInt256) (tx : CTransaction), pool.mapTx[hash]? = some tx → tx ∈ occurring ∧ tx.Checked

theorem Sound.agrees {occurring : Set CTransaction} (collisionFree : CollisionFree occurring)
    {pool : CTxMemPool} (sound : Sound occurring pool) {tx : CTransaction} (occurs : tx ∈ occurring) :
    pool.Agrees tx := by
  intro stored found
  obtain ⟨member, checked⟩ := sound.stored _ _ found
  have same := checked.onWire_eq
    (collisionFree stored member tx occurs (sound.exact.keyed _ _ found))
  have inputs := congrArg CTransaction.vin same
  have outputs := congrArg CTransaction.vout same
  simp only [CTransaction.onWire_vin, CTransaction.onWire_vout] at inputs outputs
  exact ⟨inputs, outputs⟩

theorem Sound.removed {occurring : Set CTransaction} {pool after : CTxMemPool}
    (sound : Sound occurring pool) {gone : Set UInt256} (removed : Removed pool after gone) :
    Sound occurring after :=
  ⟨removed.exact, fun hash tx found => sound.stored hash tx (removed.of_mem found).2⟩

end

section

variable [ScriptMachine] [Hashing]

/-- The pools that calls with transactions of `occurring` lead to from the empty
pool. A call that fails leaves the pool as it was. -/
inductive Reached (occurring : Set CTransaction) : CTxMemPool → Prop
  | empty : Reached occurring empty
  | accept {context : AcceptContext} {pool next : CTxMemPool} {tx : CTransaction}
      {fCheckInputs fLimitFree : Bool} (reached : Reached occurring pool) (occurs : tx ∈ occurring)
      (run : pool.accept context tx fCheckInputs fLimitFree = .ok next) : Reached occurring next
  | remove {pool next : CTxMemPool} {tx : CTransaction} {fRecursive : Bool}
      (reached : Reached occurring pool) (occurs : tx ∈ occurring)
      (run : pool.remove tx fRecursive = .ok next) : Reached occurring next
  | removeConflicts {pool next : CTxMemPool} {tx : CTransaction} (reached : Reached occurring pool)
      (occurs : tx ∈ occurring) (run : pool.removeConflicts tx = .ok next) : Reached occurring next

theorem Sound.accept {occurring : Set CTransaction} {context : AcceptContext} {pool next : CTxMemPool}
    {tx : CTransaction} {fCheckInputs fLimitFree : Bool} (sound : Sound occurring pool)
    (occurs : tx ∈ occurring) (accepted : Accepted context pool tx fCheckInputs fLimitFree next) :
    Sound occurring next := by
  refine ⟨sound.exact.accept accepted, fun hash other stored => ?_⟩
  rw [accepted.next_eq, addUnchecked_mapTx] at stored
  split at stored
  · cases stored
    exact ⟨occurs, accepted.checked⟩
  · exact sound.stored hash other stored

theorem Reached.sound {occurring : Set CTransaction} (collisionFree : CollisionFree occurring)
    {pool : CTxMemPool} (reached : Reached occurring pool) : Sound occurring pool := by
  induction reached with
  | empty =>
      refine ⟨exact_empty, ?_⟩
      intro hash tx found
      simp [CTxMemPool.empty] at found
  | accept _ occurs run ih => exact ih.accept occurs (.of_accept run)
  | remove _ occurs run ih =>
      exact ih.removed ((remove_sat ih.exact (ih.agrees collisionFree occurs) _).of_ok run)
  | removeConflicts _ _ run ih =>
      exact ih.removed ((removeConflicts_sat ih.exact _).of_ok run)

/-- What the two maps of a pool say about each other, and what a recursive
removal of a pool transaction does. -/
structure IndexExact (occurring : Set CTransaction) (pool : CTxMemPool) : Prop where
  mapped_iff : ∀ outpoint, pool.mapNextTx.contains outpoint = true ↔
    ∃! hash, ∃ n, pool.Spends ⟨hash, n⟩ outpoint
  spender : ∀ outpoint inPoint, pool.mapNextTx[outpoint]? = some inPoint ↔ pool.Spends inPoint outpoint
  keyed : ∀ (hash : UInt256) (tx : CTransaction), pool.mapTx[hash]? = some tx → tx.getHash = hash
  disjoint : ∀ left right outpoint, pool.Spends left outpoint → pool.Spends right outpoint → left = right
  removal : Acyclic pool.Child → ∀ tx ∈ occurring, pool.mapTx.contains tx.getHash = true →
    ∃ after, pool.remove tx true = .ok after ∧
      (∀ key, ReflTransGen pool.Child tx.getHash key → after.mapTx[key]? = none) ∧
      (∀ key, ¬ ReflTransGen pool.Child tx.getHash key → after.mapTx[key]? = pool.mapTx[key]?)

theorem mempool_index_exact {occurring : Set CTransaction} (collisionFree : CollisionFree occurring)
    {pool : CTxMemPool} (reached : Reached occurring pool) : IndexExact occurring pool := by
  have sound := reached.sound collisionFree
  have exact := sound.exact
  refine ⟨?_, exact.index, exact.keyed, fun left right outpoint => exact.unique, ?_⟩
  · intro outpoint
    rw [Std.ExtTreeMap.contains_eq_isSome_getElem?, Option.isSome_iff_exists]
    constructor
    · rintro ⟨inPoint, found⟩
      have spends := (exact.index _ _).mp found
      refine ⟨inPoint.ptx, ⟨inPoint.n, spends⟩, ?_⟩
      rintro hash ⟨n, also⟩
      exact congrArg CInPoint.ptx (exact.unique also spends)
    · rintro ⟨hash, ⟨n, spends⟩, _⟩
      exact ⟨⟨hash, n⟩, (exact.index _ _).mpr spends⟩
  · intro acyclic tx occurs _
    have sat := remove_sat exact (sound.agrees collisionFree occurs) true
    cases run : pool.remove tx true with
    | error reason => exact absurd acyclic (sat.of_error run)
    | ok after =>
        have removed := sat.of_ok run
        exact ⟨after, rfl, removed.removed, removed.kept⟩

end

end CTxMemPool

/-! ## Examples -/

namespace Sample

def context : AcceptContext := ⟨settings, blocks, 1, fundedView, false⟩

/-- A transaction with a comment. -/
def note (strTxComment : Bytes) : CTransaction :=
  { spend ⟨0x77, 0⟩ 800000 with nVersion := 2, strTxComment }

end Sample

namespace CTxMemPool

open Sample

theorem mempool_index_exact_sample : ∃ pool,
    Reached {payment, forward} pool ∧ pool.mapTx.contains forward.getHash = true ∧
      IndexExact {payment, forward} pool := by
  have collisionFree : CollisionFree {payment, forward} := by
    rintro left (rfl | rfl) right (rfl | rfl) same
    · rfl
    · exact absurd same (by decide +kernel)
    · exact absurd same (by decide +kernel)
    · rfl
  have both : ((empty.accept context payment true true).bind fun pool =>
      pool.accept context forward true true).isOk = true := by decide +kernel
  cases first : empty.accept context payment true true with
  | error reason =>
      rw [first] at both
      contradiction
  | ok between =>
      rw [first] at both
      simp only [Except.bind] at both
      obtain ⟨pool, second⟩ := ok_of_isOk both
      have one : Reached {payment, forward} between :=
        Reached.empty.accept (Set.mem_insert payment {forward}) first
      have reached : Reached {payment, forward} pool :=
        one.accept (Set.mem_insert_of_mem payment (Set.mem_singleton forward)) second
      refine ⟨pool, reached, ?_, mempool_index_exact collisionFree reached⟩
      rw [(Accepted.of_accept second).next_eq, contains_iff]
      exact ⟨forward, by simp [addUnchecked_mapTx]⟩

/-- Removing the conflicts of a transaction from a pool with a rival payment. -/
theorem removeConflicts_conflictFree_sample : ∃ after,
    (empty.addUnchecked payment.getHash payment).removeConflicts (spend ⟨0x77, 0⟩ 700000) = .ok after ∧
      after.ConflictFree (spend ⟨0x77, 0⟩ 700000) := by
  have exact : (empty.addUnchecked payment.getHash payment).Exact :=
    exact_empty.addUnchecked (by decide) (by simp [empty]) (by simp [empty])
  obtain ⟨after, run⟩ := ok_of_isOk (show ((empty.addUnchecked payment.getHash payment).removeConflicts
    (spend ⟨0x77, 0⟩ 700000)).isOk = true by decide +kernel)
  refine ⟨after, run, ((removeConflicts_conflictFree_iff exact _).1 after run).mpr ?_⟩
  intro hash other stored same
  rw [addUnchecked_mapTx] at stored
  split at stored
  · cases stored
    exact absurd same (by decide)
  · simp [empty] at stored

/-- Two transactions that only differ in their comments: accept takes the first
one, and removeConflicts of the second one leaves it in the pool. -/
theorem removeConflicts_comment_conflict : ∃ pool,
    empty.accept context (note [0x61]) true true = .ok pool ∧ pool.Exact ∧
      (note [0x61]).getHash ≠ (note [0x62]).getHash ∧
      ∃ after, pool.removeConflicts (note [0x62]) = .ok after ∧ ¬ after.ConflictFree (note [0x62]) := by
  obtain ⟨pool, run⟩ :=
    ok_of_isOk (show (empty.accept context (note [0x61]) true true).isOk = true by decide +kernel)
  have accepted := Accepted.of_accept run
  have exact := exact_empty.accept accepted
  have stored : pool.mapTx[(note [0x61]).getHash]? = some (note [0x61]) := by
    simp [accepted.next_eq, addUnchecked_mapTx]
  have different : (note [0x61]).getHash ≠ (note [0x62]).getHash := by decide +kernel
  refine ⟨pool, run, exact, different, pool, removeConflicts_of_equal exact stored (by decide), ?_⟩
  intro conflictFree
  exact conflictFree _ _ stored different ⟨0x77, 0⟩ (by decide) (by decide)

end CTxMemPool

end BitCrystal
