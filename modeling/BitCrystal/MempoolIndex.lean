import BitCrystal.Data.Descendants
import BitCrystal.Mempool
import Mathlib.Data.List.Range

namespace BitCrystal

open Data Relation

/-! # The spend index of the memory pool

`mapNextTx` is the inverse of the inputs of the transactions in `mapTx`: both
maps point into each other, and every operation has to keep them exact. -/

namespace CTransaction

def prevouts (tx : CTransaction) : List COutPoint :=
  tx.vin.map CTxIn.prevout

end CTransaction

namespace CTxMemPool

/-- The input `inPoint` of a transaction in the pool spends `outpoint`. -/
def Spends (pool : CTxMemPool) (inPoint : CInPoint) (outpoint : COutPoint) : Prop :=
  ∃ tx, pool.mapTx[inPoint.ptx]? = some tx ∧ tx.prevouts[inPoint.n]? = some outpoint

/-- A transaction in the pool spends an existing output of another one. -/
def Child (pool : CTxMemPool) (parent child : UInt256) : Prop :=
  ∃ tx i n, pool.mapTx[parent]? = some tx ∧ i < tx.vout.length ∧
    pool.Spends ⟨child, n⟩ ⟨parent, UInt32.ofNat i⟩

structure Exact [Hashing] (pool : CTxMemPool) : Prop where
  keyed : ∀ (hash : UInt256) (tx : CTransaction), pool.mapTx[hash]? = some tx → tx.getHash = hash
  index : ∀ outpoint inPoint, pool.mapNextTx[outpoint]? = some inPoint ↔ pool.Spends inPoint outpoint

/-- What `tx` and the pool's transaction with its hash have in common. -/
def Agrees [Hashing] (pool : CTxMemPool) (tx : CTransaction) : Prop :=
  ∀ stored, pool.mapTx[tx.getHash]? = some stored → stored.vin = tx.vin ∧ stored.vout = tx.vout

theorem Spends.child {pool : CTxMemPool} {parent : UInt256} {tx : CTransaction} {inPoint : CInPoint} {i : Nat}
    (stored : pool.mapTx[parent]? = some tx) (within : i < tx.vout.length)
    (spends : pool.Spends inPoint ⟨parent, UInt32.ofNat i⟩) : pool.Child parent inPoint.ptx :=
  ⟨tx, i, inPoint.n, stored, within, spends⟩

theorem Child.mem {pool : CTxMemPool} {parent child : UInt256} (edge : pool.Child parent child) :
    ∃ tx, pool.mapTx[child]? = some tx := by
  obtain ⟨_, _, _, _, _, tx, stored, _⟩ := edge
  exact ⟨tx, stored⟩

theorem contains_eq_false_iff {κ ν : Type} [Ord κ] [Std.TransOrd κ] {map : Std.ExtTreeMap κ ν} {key : κ} :
    map.contains key = false ↔ map[key]? = none := by
  rw [Std.ExtTreeMap.contains_eq_isSome_getElem?, Option.isSome_eq_false_iff, Option.isNone_iff_eq_none]

theorem contains_iff {pool : CTxMemPool} {hash : UInt256} :
    pool.mapTx.contains hash = true ↔ ∃ tx, pool.mapTx[hash]? = some tx := by
  rw [Std.ExtTreeMap.contains_eq_isSome_getElem?, Option.isSome_iff_exists]

theorem descendants_of_absent {pool : CTxMemPool} {hash : UInt256}
    (absent : ¬ pool.mapTx.contains hash = true) : descendants pool.Child hash = {hash} := by
  apply descendants_of_no_step
  rintro child ⟨tx, _, _, stored, _⟩
  exact absent (contains_iff.mpr ⟨tx, stored⟩)

theorem ncard_descendants_le (pool : CTxMemPool) (hash : UInt256) :
    (descendants pool.Child hash).ncard ≤ pool.mapTx.size + 1 := by
  have inside : descendants pool.Child hash ⊆ insert hash {key | key ∈ pool.mapTx.keys} := by
    apply descendants_subset_of_closed (Set.mem_insert hash _)
    intro parent _ child edge
    obtain ⟨tx, stored⟩ := edge.mem
    refine Set.mem_insert_of_mem hash ?_
    rw [Set.mem_ofPred_eq, Std.ExtTreeMap.mem_keys]
    exact Std.ExtTreeMap.contains_iff_mem.mp (contains_iff.mpr ⟨tx, stored⟩)
  have keys : {key | key ∈ pool.mapTx.keys} = (pool.mapTx.keys.toFinset : Set UInt256) := by
    rw [List.coe_toFinset]
  calc
    (descendants pool.Child hash).ncard
        ≤ (insert hash {key | key ∈ pool.mapTx.keys}).ncard := Set.ncard_le_ncard inside (Set.toFinite _)
    _ ≤ {key | key ∈ pool.mapTx.keys}.ncard + 1 := Set.ncard_insert_le _ _
    _ ≤ pool.mapTx.size + 1 := by
        rw [keys, Set.ncard_coe_finset, ← Std.ExtTreeMap.length_keys]
        exact Nat.add_le_add_right (List.toFinset_card_le _) 1

/-! ## The two maps -/

theorem insertInputs_getElem? {hash : UInt256} {inputs : List CTxIn} (start : Nat)
    (mapNextTx : Std.ExtTreeMap COutPoint CInPoint) {outpoint : COutPoint} {inPoint : CInPoint}
    (nodup : (inputs.map CTxIn.prevout).Nodup) :
    ((inputs.zipIdx start).foldl
      (fun mapNextTx input => mapNextTx.insert input.1.prevout ⟨hash, input.2⟩) mapNextTx)[outpoint]? =
        some inPoint ↔
      (∃ i, (inputs.map CTxIn.prevout)[i]? = some outpoint ∧ inPoint = ⟨hash, start + i⟩) ∨
        (outpoint ∉ inputs.map CTxIn.prevout ∧ mapNextTx[outpoint]? = some inPoint) := by
  induction inputs generalizing start mapNextTx with
  | nil => simp
  | cons txin rest ih =>
      rw [List.map_cons, List.nodup_cons] at nodup
      rw [List.zipIdx_cons, List.foldl_cons, ih (start + 1) _ nodup.2, Std.ExtTreeMap.getElem?_insert]
      simp only [Std.compare_eq_iff_eq, List.map_cons, List.mem_cons, not_or]
      constructor
      · rintro (⟨i, found, rfl⟩ | ⟨absent, found⟩)
        · exact Or.inl ⟨i + 1, by simpa using found, by simp; omega⟩
        · by_cases same : txin.prevout = outpoint
          · rw [if_pos same] at found
            exact Or.inl ⟨0, by simpa using same, (Option.some.inj found).symm⟩
          · rw [if_neg same] at found
            exact Or.inr ⟨⟨fun equal => same equal.symm, absent⟩, found⟩
      · rintro (⟨i, found, rfl⟩ | ⟨⟨different, absent⟩, found⟩)
        · cases i with
          | zero =>
              have same : txin.prevout = outpoint := by simpa using found
              exact Or.inr ⟨same ▸ nodup.1, by simp [same]⟩
          | succ i => exact Or.inl ⟨i, by simpa using found, by simp; omega⟩
        · rw [if_neg fun equal => different equal.symm]
          exact Or.inr ⟨absent, found⟩

theorem addUnchecked_mapTx (pool : CTxMemPool) (hash key : UInt256) (tx : CTransaction) :
    (pool.addUnchecked hash tx).mapTx[key]? = if hash = key then some tx else pool.mapTx[key]? := by
  simp only [addUnchecked, Std.ExtTreeMap.getElem?_insert, Std.compare_eq_iff_eq]

theorem eraseInputs_getElem? (inputs : List CTxIn) (mapNextTx : Std.ExtTreeMap COutPoint CInPoint)
    (outpoint : COutPoint) :
    (inputs.foldl (fun mapNextTx txin => mapNextTx.erase txin.prevout) mapNextTx)[outpoint]? =
      if outpoint ∈ inputs.map CTxIn.prevout then none else mapNextTx[outpoint]? := by
  induction inputs generalizing mapNextTx with
  | nil => simp
  | cons txin rest ih =>
      rw [List.foldl_cons, ih, Std.ExtTreeMap.getElem?_erase, List.map_cons]
      simp only [Std.compare_eq_iff_eq, List.mem_cons]
      by_cases later : outpoint ∈ rest.map CTxIn.prevout
      · simp [later]
      · simp [later, eq_comm]

theorem unlink_mapTx (pool : CTxMemPool) (hash key : UInt256) (tx : CTransaction) :
    (pool.unlink hash tx).mapTx[key]? = if hash = key then none else pool.mapTx[key]? := by
  simp only [unlink, Std.ExtTreeMap.getElem?_erase, Std.compare_eq_iff_eq]

section

variable [Hashing]

theorem Exact.unique {pool : CTxMemPool} (exact : pool.Exact) {left right : CInPoint}
    {outpoint : COutPoint} (first : pool.Spends left outpoint) (second : pool.Spends right outpoint) :
    left = right := by
  have found := (exact.index outpoint left).mpr first
  rw [(exact.index outpoint right).mpr second] at found
  exact (Option.some.inj found).symm

theorem Exact.agrees {pool : CTxMemPool} (exact : pool.Exact) {hash : UInt256} {tx : CTransaction}
    (stored : pool.mapTx[hash]? = some tx) : pool.Agrees tx := by
  intro other found
  rw [exact.keyed hash tx stored, stored] at found
  cases found
  exact ⟨rfl, rfl⟩

theorem exact_empty : empty.Exact := by
  constructor
  · intro hash tx stored
    simp [empty] at stored
  · intro outpoint inPoint
    simp [empty, Spends]

/-! ## Adding a transaction -/

theorem Exact.addUnchecked {pool : CTxMemPool} (exact : pool.Exact) {tx : CTransaction}
    (nodup : tx.prevouts.Nodup) (fresh : pool.mapTx[tx.getHash]? = none)
    (free : ∀ outpoint ∈ tx.prevouts, pool.mapNextTx[outpoint]? = none) :
    (pool.addUnchecked tx.getHash tx).Exact := by
  constructor
  · intro hash other stored
    rw [addUnchecked_mapTx] at stored
    split at stored
    · cases stored
      assumption
    · exact exact.keyed hash other stored
  · intro outpoint inPoint
    have inserted : (pool.addUnchecked tx.getHash tx).mapNextTx[outpoint]? = some inPoint ↔ _ :=
      insertInputs_getElem? 0 pool.mapNextTx nodup
    rw [inserted]
    constructor
    · rintro (⟨i, found, rfl⟩ | ⟨_, found⟩)
      · exact ⟨tx, by simp [addUnchecked_mapTx], by simpa [CTransaction.prevouts] using found⟩
      · obtain ⟨other, stored, spends⟩ := (exact.index outpoint inPoint).mp found
        refine ⟨other, ?_, spends⟩
        rw [addUnchecked_mapTx, if_neg]
        · exact stored
        · intro same
          rw [← same, fresh] at stored
          contradiction
    · rintro ⟨other, stored, spends⟩
      rw [addUnchecked_mapTx] at stored
      split at stored
      · rename_i same
        cases stored
        refine Or.inl ⟨inPoint.n, spends, ?_⟩
        simp [same]
      · have found := (exact.index outpoint inPoint).mpr ⟨other, stored, spends⟩
        refine Or.inr ⟨?_, found⟩
        intro member
        rw [free outpoint member] at found
        contradiction

/-! ## Removing transactions -/

/-- The transactions under the hashes in `gone` have left the pool, and the pool
is exact again. -/
structure Removed (before after : CTxMemPool) (gone : Set UInt256) : Prop where
  exact : after.Exact
  kept : ∀ key ∉ gone, after.mapTx[key]? = before.mapTx[key]?
  removed : ∀ key ∈ gone, after.mapTx[key]? = none

theorem Removed.of_mem {before after : CTxMemPool} {gone : Set UInt256}
    (removed : Removed before after gone) {key : UInt256} {tx : CTransaction}
    (stored : after.mapTx[key]? = some tx) : key ∉ gone ∧ before.mapTx[key]? = some tx := by
  have stays : key ∉ gone := by
    intro member
    rw [removed.removed key member] at stored
    contradiction
  rw [removed.kept key stays] at stored
  exact ⟨stays, stored⟩

theorem Removed.spends {before after : CTxMemPool} {gone : Set UInt256}
    (removed : Removed before after gone) {inPoint : CInPoint} {outpoint : COutPoint} :
    after.Spends inPoint outpoint ↔ inPoint.ptx ∉ gone ∧ before.Spends inPoint outpoint := by
  constructor
  · rintro ⟨tx, stored, spends⟩
    obtain ⟨stays, stored⟩ := removed.of_mem stored
    exact ⟨stays, tx, stored, spends⟩
  · rintro ⟨stays, tx, stored, spends⟩
    exact ⟨tx, (removed.kept _ stays).trans stored, spends⟩

theorem Removed.child {before after : CTxMemPool} {gone : Set UInt256}
    (removed : Removed before after gone) {parent child : UInt256} :
    after.Child parent child ↔ parent ∉ gone ∧ child ∉ gone ∧ before.Child parent child := by
  constructor
  · rintro ⟨tx, i, n, stored, within, spends⟩
    obtain ⟨parentStays, stored⟩ := removed.of_mem stored
    obtain ⟨childStays, spends⟩ := removed.spends.mp spends
    exact ⟨parentStays, childStays, tx, i, n, stored, within, spends⟩
  · rintro ⟨parentStays, childStays, tx, i, n, stored, within, spends⟩
    exact ⟨tx, i, n, (removed.kept _ parentStays).trans stored, within,
      removed.spends.mpr ⟨childStays, spends⟩⟩

theorem Removed.nothing {pool : CTxMemPool} (exact : pool.Exact) : Removed pool pool ∅ :=
  ⟨exact, fun _ _ => rfl, fun _ member => absurd member (Set.notMem_empty _)⟩

theorem Removed.trans {before between after : CTxMemPool} {gone more : Set UInt256}
    (first : Removed before between gone) (second : Removed between after more) :
    Removed before after (gone ∪ more) := by
  refine ⟨second.exact, ?_, ?_⟩
  · intro key stays
    rw [Set.mem_union, not_or] at stays
    rw [second.kept key stays.2, first.kept key stays.1]
  · intro key member
    by_cases late : key ∈ more
    · exact second.removed key late
    · rw [second.kept key late]
      exact first.removed key (Or.resolve_right member late)

theorem Removed.closed_union {before between : CTxMemPool} {gone more : Set UInt256}
    (removed : Removed before between gone) (closed : Closed before.Child gone)
    (next : Closed between.Child more) : Closed before.Child (gone ∪ more) := by
  intro parent member child edge
  by_cases parentGone : parent ∈ gone
  · exact Or.inl (closed parent parentGone child edge)
  · by_cases childGone : child ∈ gone
    · exact Or.inl childGone
    · have descends := Or.resolve_left member parentGone
      exact Or.inr (next parent descends child (removed.child.mpr ⟨parentGone, childGone, edge⟩))

theorem Exact.unlink {pool : CTxMemPool} (exact : pool.Exact) {hash : UInt256} {tx : CTransaction}
    (own : ∀ stored, pool.mapTx[hash]? = some stored → stored.vin = tx.vin)
    (sole : ∀ inPoint outpoint, pool.Spends inPoint outpoint → outpoint ∈ tx.prevouts →
      inPoint.ptx = hash) : Removed pool (pool.unlink hash tx) {hash} := by
  have spends : ∀ outpoint inPoint, (pool.unlink hash tx).Spends inPoint outpoint ↔
      inPoint.ptx ≠ hash ∧ pool.Spends inPoint outpoint := by
    intro outpoint inPoint
    simp only [Spends, unlink_mapTx]
    by_cases same : hash = inPoint.ptx
    · simp [same]
    · simp [same, Ne.symm same]
  refine ⟨⟨?_, ?_⟩, ?_, ?_⟩
  · intro key stored found
    rw [unlink_mapTx] at found
    split at found
    · contradiction
    · exact exact.keyed key stored found
  · intro outpoint inPoint
    rw [spends, ← exact.index]
    rw [show (pool.unlink hash tx).mapNextTx[outpoint]? = _ from eraseInputs_getElem? _ _ _]
    split
    · rename_i member
      constructor
      · intro found
        contradiction
      · rintro ⟨different, found⟩
        exact absurd (sole _ _ ((exact.index _ _).mp found) member) different
    · rename_i absent
      constructor
      · intro found
        refine ⟨?_, found⟩
        intro same
        obtain ⟨stored, lookup, prevout⟩ := (exact.index _ _).mp found
        rw [same] at lookup
        have member := List.mem_of_getElem? prevout
        rw [CTransaction.prevouts, own stored lookup] at member
        exact absent member
      · exact And.right
  · intro key stays
    rw [unlink_mapTx, if_neg fun same => stays same.symm]
  · intro key member
    rw [unlink_mapTx, if_pos (Set.mem_singleton_iff.mp member).symm]

/-! ## The recursive removal -/

/-- What a recursive removal takes out, and when it may fail to return: in a
cyclic spend graph, or with less depth than there are transactions to remove. -/
def RemovesDescendants (depth : Nat)
    (removeChild : CTransaction → CTxMemPool → Except Failure CTxMemPool) : Prop :=
  ∀ pool tx, pool.Exact → pool.Agrees tx →
    Sat (removeChild tx pool)
      (fun after => Removed pool after (descendants pool.Child tx.getHash))
      (fun _ => ¬ (Acyclic pool.Child ∧ (descendants pool.Child tx.getHash).ncard ≤ depth))

/-- The state of the loop of remove over the outputs of the transaction `tx`
before the turns for the outputs in `rest`. -/
def Removing (pool : CTxMemPool) (tx : CTransaction) (between : CTxMemPool) (rest : List Nat) : Prop :=
  ∃ gone, Removed pool between gone ∧ Closed pool.Child gone ∧
    gone ⊆ descendants pool.Child tx.getHash ∧
    (∀ i ∈ rest, i < tx.vout.length) ∧
    ∀ i < tx.vout.length, i ∈ rest ∨
      ∀ inPoint, pool.Spends inPoint ⟨tx.getHash, UInt32.ofNat i⟩ → inPoint.ptx ∈ gone

theorem removeSpender_sat {depth : Nat}
    {removeChild : CTransaction → CTxMemPool → Except Failure CTxMemPool}
    (removes : RemovesDescendants depth removeChild) {pool between : CTxMemPool} {tx stored : CTransaction}
    (member : pool.mapTx[tx.getHash]? = some stored) (outputs : stored.vout = tx.vout)
    {i : Nat} {rest : List Nat} (removing : Removing pool tx between (i :: rest)) :
    Sat (removeSpender removeChild tx.getHash between i)
      (fun after => Removing pool tx after rest)
      (fun _ => ¬ (Acyclic pool.Child ∧ (descendants pool.Child tx.getHash).ncard ≤ depth + 1)) := by
  obtain ⟨gone, removed, closed, below, bounded, covered⟩ := removing
  have within : i < tx.vout.length := bounded i List.mem_cons_self
  unfold removeSpender
  cases found : between.mapNextTx[(⟨tx.getHash, UInt32.ofNat i⟩ : COutPoint)]? with
  | none =>
      refine ⟨gone, removed, closed, below, fun j later => bounded j (List.mem_cons_of_mem i later), ?_⟩
      intro j inRange
      cases covered j inRange with
      | inr done => exact Or.inr done
      | inl waiting =>
          rcases List.mem_cons.mp waiting with rfl | later
          · refine Or.inr fun inPoint spends => ?_
            by_contra stays
            have present := (removed.exact.index _ _).mpr (removed.spends.mpr ⟨stays, spends⟩)
            rw [found] at present
            contradiction
          · exact Or.inl later
  | some inPoint =>
      have spends := (removed.exact.index _ _).mp found
      obtain ⟨stays, spendsBefore⟩ := removed.spends.mp spends
      have edge : pool.Child tx.getHash inPoint.ptx :=
        Spends.child member (outputs ▸ within) spendsBefore
      obtain ⟨spender, lookup, _⟩ := spends
      have keyed : spender.getHash = inPoint.ptx := removed.exact.keyed _ _ lookup
      have inside : descendants between.Child spender.getHash ⊆ descendants pool.Child spender.getHash :=
        descendants_mono fun parent child step => (removed.child.mp step).2.2
      have recursive := removes between spender removed.exact (removed.exact.agrees lookup)
      simp only [lookup, expect, ok_bind]
      cases run : removeChild spender between with
      | error reason =>
          have stuck := recursive.of_error run
          rintro ⟨acyclic, enough⟩
          refine stuck ⟨acyclic.mono fun parent child step => (removed.child.mp step).2.2, ?_⟩
          have fewer := acyclic.ncard_lt (keyed ▸ edge)
          have atMost := Set.ncard_le_ncard inside (Set.toFinite _)
          omega
      | ok after =>
          have more := recursive.of_ok run
          refine ⟨gone ∪ descendants between.Child spender.getHash, removed.trans more,
            removed.closed_union closed descendants_closed, ?_, fun j later => bounded j (List.mem_cons_of_mem i later), ?_⟩
          · apply Set.union_subset below
            exact inside.trans (descendants_subset (keyed ▸ edge))
          · intro j inRange
            cases covered j inRange with
            | inr done => exact Or.inr fun other spends => Or.inl (done other spends)
            | inl waiting =>
                rcases List.mem_cons.mp waiting with rfl | later
                · refine Or.inr fun other spends => ?_
                  by_cases otherGone : other.ptx ∈ gone
                  · exact Or.inl otherGone
                  · have same := removed.exact.unique (removed.spends.mpr ⟨otherGone, spends⟩)
                      ((removed.exact.index _ _).mp found)
                    rw [same, ← keyed]
                    exact Or.inr start_mem_descendants
                · exact Or.inl later

theorem Removing.gone_eq {pool between : CTxMemPool} {tx stored : CTransaction}
    (member : pool.mapTx[tx.getHash]? = some stored) (outputs : stored.vout = tx.vout)
    (removing : Removing pool tx between []) :
    ∃ gone, Removed pool between gone ∧ gone ∪ {tx.getHash} = descendants pool.Child tx.getHash := by
  obtain ⟨gone, removed, closed, below, _, covered⟩ := removing
  refine ⟨gone, removed, Set.eq_of_subset_of_subset ?_ ?_⟩
  · apply Set.union_subset below
    intro key same
    rw [Set.mem_singleton_iff.mp same]
    exact start_mem_descendants
  · apply descendants_subset_of_closed (Set.mem_union_right gone (Set.mem_singleton _))
    intro parent inside child edge
    rcases inside with parentGone | same
    · exact Or.inl (closed parent parentGone child edge)
    · rw [Set.mem_singleton_iff.mp same] at edge
      obtain ⟨parentTx, i, n, lookup, within, spends⟩ := edge
      rw [member] at lookup
      cases lookup
      cases covered i (outputs ▸ within) with
      | inl waiting => exact absurd waiting List.not_mem_nil
      | inr done => exact Or.inl (done _ spends)

theorem Removing.initially {pool : CTxMemPool} (exact : pool.Exact) (tx : CTransaction) :
    Removing pool tx pool (List.range tx.vout.length) := by
  refine ⟨∅, .nothing exact, fun _ member => absurd member (Set.notMem_empty _),
    Set.empty_subset _, ?_, ?_⟩
  · intro i member
    exact List.mem_range.mp member
  · intro i within
    exact Or.inl (List.mem_range.mpr within)

theorem Removed.unlink {pool between : CTxMemPool} (exact : pool.Exact) {gone : Set UInt256}
    (removed : Removed pool between gone) {tx stored : CTransaction} (agrees : pool.Agrees tx)
    (member : pool.mapTx[tx.getHash]? = some stored) :
    Removed pool (between.unlink tx.getHash tx) (gone ∪ {tx.getHash}) := by
  apply removed.trans
  apply removed.exact.unlink
  · intro other found
    exact (agrees other (removed.of_mem found).2).1
  · intro inPoint outpoint spends spent
    rw [CTransaction.prevouts, ← (agrees stored member).1] at spent
    obtain ⟨n, found⟩ := List.mem_iff_getElem?.mp spent
    have own : pool.Spends ⟨tx.getHash, n⟩ outpoint := ⟨stored, member, found⟩
    rw [exact.unique (removed.spends.mp spends).2 own]

theorem Removed.absent {pool : CTxMemPool} (exact : pool.Exact) {hash : UInt256}
    (absent : ¬ pool.mapTx.contains hash = true) : Removed pool pool {hash} := by
  refine ⟨exact, fun _ _ => rfl, ?_⟩
  intro key same
  rw [Set.mem_singleton_iff.mp same]
  exact Option.eq_none_iff_forall_ne_some.mpr fun tx stored => absent (contains_iff.mpr ⟨tx, stored⟩)

theorem removeWithin_removes (depth : Nat) :
    RemovesDescendants depth fun tx pool => removeWithin depth tx true pool := by
  induction depth with
  | zero =>
      rintro pool tx exact agrees ⟨_, few⟩
      have some : 0 < (descendants pool.Child tx.getHash).ncard :=
        (Set.ncard_pos (Set.toFinite _)).mpr ⟨_, start_mem_descendants⟩
      omega
  | succ depth ih =>
      intro pool tx exact agrees
      unfold removeWithin
      apply Sat.ite
      · intro present
        obtain ⟨stored, member⟩ := contains_iff.mp present
        have outputs := (agrees stored member).2
        simp only [if_true]
        have loop := Sat.foldlM (Removing pool tx) (fun between i rest removing =>
          removeSpender_sat ih member outputs removing) _ _ (Removing.initially exact tx)
        refine loop.bind fun between removing => Sat.of_pure ?_
        obtain ⟨gone, removed, all⟩ := removing.gone_eq member outputs
        rw [← all]
        exact removed.unlink exact agrees member
      · intro absent
        rw [descendants_of_absent absent]
        exact Removed.absent exact absent

/-- remove leaves an exact pool without the transaction, and without its
descendants when it is recursive; in an acyclic spend graph it returns. -/
theorem remove_sat {pool : CTxMemPool} (exact : pool.Exact) {tx : CTransaction} (agrees : pool.Agrees tx)
    (fRecursive : Bool) :
    Sat (pool.remove tx fRecursive)
      (fun after => Removed pool after
        (if fRecursive then descendants pool.Child tx.getHash else {tx.getHash}))
      (fun _ => ¬ Acyclic pool.Child) := by
  cases fRecursive with
  | true =>
      have sat := removeWithin_removes (pool.mapTx.size + 1) pool tx exact agrees
      unfold remove
      cases run : removeWithin (pool.mapTx.size + 1) tx true pool with
      | ok after => exact sat.of_ok run
      | error reason =>
          intro acyclic
          exact sat.of_error run ⟨acyclic, pool.ncard_descendants_le tx.getHash⟩
  | false =>
      simp only [remove, removeWithin, Bool.false_eq_true, if_false, ok_bind]
      apply Sat.ite
      · intro present
        obtain ⟨stored, member⟩ := contains_iff.mp present
        have removed := (Removed.nothing exact).unlink exact agrees member
        rw [Set.empty_union] at removed
        exact removed
      · exact Removed.absent exact

end

end CTxMemPool

end BitCrystal
