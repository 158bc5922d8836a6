import BitCrystal.BloomRelevance
import BitCrystal.Disconnect
import BitCrystal.PartialMerkleRoundTrip

namespace BitCrystal

open Data

/-! # Filtered blocks -/

/-! ## Transactions of a block -/

theorem getElem?_drop_entries {vtx : List CTransaction} {i k : Nat} {tx : CTransaction} (later : i < k)
    (here : vtx[k]? = some tx) : (vtx.zipIdx.drop (i + 1))[k - (i + 1)]? = some (tx, k) := by
  rw [List.getElem?_drop, show i + 1 + (k - (i + 1)) = k by omega]
  simp [here]

theorem split_entries {vtx : List CTransaction} {i : Nat} {tx : CTransaction} (here : vtx[i]? = some tx) :
    vtx.zipIdx = vtx.zipIdx.take i ++ (tx, i) :: vtx.zipIdx.drop (i + 1) := by
  have entry : vtx.zipIdx[i]? = some (tx, i) := by simp [here]
  obtain ⟨within, atPlace⟩ := List.getElem?_eq_some_iff.mp entry
  rw [← atPlace, List.getElem_cons_drop, List.take_append_drop]

theorem CTransaction.Checked.size_ge {tx : CTransaction} (checked : tx.Checked) : 60 ≤ tx.getSerializeSize := by
  unfold CTransaction.getSerializeSize
  cases vin : tx.vin with
  | nil => exact absurd vin checked.vin_ne_nil
  | cons txin inputs =>
      cases vout : tx.vout with
      | nil => exact absurd vout checked.vout_ne_nil
      | cons txout outputs =>
          have scriptSig := getSizeOfCompactSize_pos txin.scriptSig.length
          have scriptPubKey := getSizeOfCompactSize_pos txout.scriptPubKey.length
          have inputCount := getSizeOfCompactSize_pos (txin :: inputs).length
          have outputCount := getSizeOfCompactSize_pos (txout :: outputs).length
          simp only [List.map_cons, List.sum_cons, CTxIn.getSerializeSize, CTxOut.getSerializeSize]
          omega

theorem sizes_ge {txs : List CTransaction} (checked : ∀ tx ∈ txs, tx.Checked) :
    60 * txs.length ≤ (txs.map CTransaction.getSerializeSize).sum := by
  induction txs with
  | nil => simp
  | cons tx rest ih =>
      have first := CTransaction.Checked.size_ge (checked tx List.mem_cons_self)
      have others := ih fun other member => checked other (List.mem_cons_of_mem _ member)
      rw [List.length_cons, List.map_cons, List.sum_cons]
      omega

section

variable [Hashing]

/-- A header with a partial tree; the matched transactions are not sent. -/
structure CMerkleBlock where
  header : CBlockHeader
  txn : CPartialMerkleTree
  vMatchedTxn : List (Nat × UInt256)

/-- How far the constructor of CMerkleBlock has come. -/
structure FilterScan where
  filter : CBloomFilter
  vMatch : List Bool
  vHashes : List UInt256
  vMatchedTxn : List (Nat × UInt256)

/-- A turn of its loop over the transactions. -/
def scanTransaction (s : FilterScan) (entry : CTransaction × Nat) : Except Failure FilterScan := do
  let hash := entry.1.getHash
  let (filter, found) ← s.filter.isRelevantAndUpdate entry.1 hash
  return {
    filter
    vMatch := s.vMatch ++ [found]
    vHashes := s.vHashes ++ [hash]
    vMatchedTxn := if found then s.vMatchedTxn ++ [(entry.2, hash)] else s.vMatchedTxn }

/-- `CMerkleBlock(block, filter)`, with the filter that it leaves. -/
def CMerkleBlock.ofBlock (block : CBlock) (filter : CBloomFilter) : Except Failure (CMerkleBlock × CBloomFilter) := do
  let s ← block.vtx.zipIdx.foldlM scanTransaction ⟨filter, [], [], []⟩
  let txn ← CPartialMerkleTree.ofMatches s.vHashes s.vMatch
  return (⟨block.toCBlockHeader, txn, s.vMatchedTxn⟩, s.filter)

/-- The filter when the loop of IsRelevantAndUpdate comes to output `n` of transaction `i`. -/
def CBlock.filterAt (block : CBlock) (filter : CBloomFilter) (i n : Nat) : Except Failure CBloomFilter := do
  let s ← (block.vtx.zipIdx.take i).foldlM scanTransaction ⟨filter, [], [], []⟩
  let tx ← expect block.vtx[i]? (.undefined "CMerkleBlock")
  let (current, _) ← s.filter.beforeOutput tx tx.getHash n
  return current

/-- What a wallet relies on. -/
structure CMerkleBlock.Follows (merkleBlock : CMerkleBlock) (block : CBlock) (filter : CBloomFilter) : Prop where
  matched : ∀ (i : Nat) tx, block.vtx[i]? = some tx → filter.Matches tx tx.getHash →
    (i, tx.getHash) ∈ merkleBlock.vMatchedTxn
  followed : ∀ (i n : Nat) tx txout current, block.vtx[i]? = some tx → tx.vout[n]? = some txout →
    block.filterAt filter i n = .ok current → current.HasData txout.scriptPubKey →
    (i, tx.getHash) ∈ merkleBlock.vMatchedTxn ∧
      ∀ (k : Nat) other, i < k → block.vtx[k]? = some other →
        ⟨tx.getHash, UInt32.ofNat n⟩ ∈ other.vin.map CTxIn.prevout → (k, other.getHash) ∈ merkleBlock.vMatchedTxn
  tree : ∃ received s, Reads CPartialMerkleTree.unserialize merkleBlock.txn.serialize received ∧
    received.extractMatches = .ok (block.buildMerkleTree, s) ∧ s.vMatch = merkleBlock.vMatchedTxn.map Prod.snd ∧
    s.fBad = false

/-! ## The loop over the transactions -/

def marked (entries : List (CTransaction × Nat)) (marks : List Bool) : List (Nat × UInt256) :=
  ((entries.zip marks).filter Prod.snd).map fun entry => (entry.1.2, entry.1.1.getHash)

theorem mem_marked {entries : List (CTransaction × Nat)} {marks : List Bool} {k : Nat} {entry : CTransaction × Nat}
    (here : entries[k]? = some entry) (isMarked : marks[k]? = some true) :
    (entry.2, entry.1.getHash) ∈ marked entries marks := by
  have both : (entries.zip marks)[k]? = some (entry, true) := by
    rw [List.getElem?_zip_eq_some]
    exact ⟨here, isMarked⟩
  exact List.mem_map.mpr ⟨(entry, true), List.mem_filter.mpr ⟨List.mem_of_getElem? both, rfl⟩, rfl⟩

theorem marked_cons (entry : CTransaction × Nat) (entries : List (CTransaction × Nat)) (mark : Bool) (marks : List Bool) :
    marked (entry :: entries) (mark :: marks) =
      (if mark then [(entry.2, entry.1.getHash)] else []) ++ marked entries marks := by
  cases mark <;> rfl

theorem marked_snd (entries : List (CTransaction × Nat)) (marks : List Bool) :
    (marked entries marks).map Prod.snd = selected (entries.map fun entry => entry.1.getHash) marks := by
  induction entries generalizing marks with
  | nil => rfl
  | cons entry entries ih =>
      cases marks with
      | nil => rfl
      | cons mark marks =>
          rw [marked_cons, List.map_append, ih]
          cases mark <;> rfl

/-- What the loop adds to its state. -/
structure FilterScan.Extends (s after : FilterScan) (entries : List (CTransaction × Nat)) (marks : List Bool) :
    Prop where
  grows : s.filter.Grows after.filter
  length : marks.length = entries.length
  vMatch : after.vMatch = s.vMatch ++ marks
  vHashes : after.vHashes = s.vHashes ++ entries.map fun entry => entry.1.getHash
  vMatchedTxn : after.vMatchedTxn = s.vMatchedTxn ++ marked entries marks

theorem scanTransaction_spec {s : FilterScan} (usable : s.filter.Usable) (entry : CTransaction × Nat) :
    ∃ after found, scanTransaction s entry = .ok after ∧
      s.filter.isRelevantAndUpdate entry.1 entry.1.getHash = .ok (after.filter, found) ∧
      s.Extends after [entry] [found] ∧ (s.filter.Matches entry.1 entry.1.getHash → found = true) := by
  obtain ⟨filter, found, run, grows, finds⟩ := CBloomFilter.isRelevantAndUpdate_spec usable entry.1 entry.1.getHash
  refine ⟨_, found, by rw [scanTransaction, run, ok_bind]; rfl, run, ⟨grows, rfl, rfl, rfl, ?_⟩, finds⟩
  cases found with
  | true => rfl
  | false => exact (List.append_nil _).symm

theorem scan_spec {s : FilterScan} (usable : s.filter.Usable) (entries : List (CTransaction × Nat)) :
    ∃ after marks, entries.foldlM scanTransaction s = .ok after ∧ s.Extends after entries marks ∧
      ∀ (k : Nat) entry, entries[k]? = some entry → s.filter.Matches entry.1 entry.1.getHash →
        marks[k]? = some true := by
  induction entries generalizing s with
  | nil => exact ⟨s, [], rfl, ⟨.refl s.filter, rfl, by simp, by simp, by simp [marked]⟩, fun k entry here => by cases here⟩
  | cons entry rest ih =>
      obtain ⟨mid, found, first, _, extend, finds⟩ := scanTransaction_spec usable entry
      obtain ⟨after, marks, others, extension, later⟩ := ih (extend.grows.usable usable)
      refine ⟨after, found :: marks, by rw [List.foldlM_cons, first, ok_bind, others], ⟨?_, ?_, ?_, ?_, ?_⟩, ?_⟩
      · exact extend.grows.trans extension.grows
      · rw [List.length_cons, List.length_cons, extension.length]
      · rw [extension.vMatch, extend.vMatch, List.append_assoc, List.singleton_append]
      · rw [extension.vHashes, extend.vHashes, List.append_assoc]
        rfl
      · rw [extension.vMatchedTxn, extend.vMatchedTxn, List.append_assoc, marked_cons, marked_cons]
        simp [marked]
      · intro k other here has
        cases k with
        | zero =>
            obtain rfl : entry = other := by simpa using here
            simpa using finds has
        | succ k => exact later k other (by simpa using here) (has.mono extend.grows)

/-! ## The filtered block -/

theorem scan_follows {block : CBlock} {filter current : CBloomFilter} {after : FilterScan} {marks : List Bool}
    (usable : filter.Usable) (updateAll : filter.nFlags &&& BLOOM_UPDATE_MASK = BLOOM_UPDATE_ALL)
    (whole : block.vtx.zipIdx.foldlM scanTransaction ⟨filter, [], [], []⟩ = .ok after)
    (extension : FilterScan.Extends ⟨filter, [], [], []⟩ after block.vtx.zipIdx marks) {i n : Nat} {tx : CTransaction}
    {txout : CTxOut} (here : block.vtx[i]? = some tx) (output : tx.vout[n]? = some txout)
    (reached : block.filterAt filter i n = .ok current) (data : current.HasData txout.scriptPubKey) :
    marks[i]? = some true ∧ ∀ (k : Nat) other, i < k → block.vtx[k]? = some other →
      ⟨tx.getHash, UInt32.ofNat n⟩ ∈ other.vin.map CTxIn.prevout → marks[k]? = some true := by
  obtain ⟨within, _⟩ := List.getElem?_eq_some_iff.mp here
  have start : FilterScan.filter ⟨filter, [], [], []⟩ = filter := rfl
  obtain ⟨mid, marks1, first, extend1, _⟩ := scan_spec (s := ⟨filter, [], [], []⟩) usable (block.vtx.zipIdx.take i)
  have usable1 := extend1.grows.usable usable
  rw [CBlock.filterAt, first, ok_bind, here] at reached
  simp only [expect, ok_bind, bind_eq_ok] at reached
  obtain ⟨⟨current', early⟩, before, same⟩ := reached
  obtain rfl : current' = current := by simpa using same
  obtain ⟨next, found, second, run, extend2, _⟩ := scanTransaction_spec usable1 (tx, i)
  have updates : current'.updatesWith txout.scriptPubKey = true := by
    have grows := CBloomFilter.beforeOutput_grows usable1 before
    rw [CBloomFilter.updatesWith, grows.nFlags, extend1.grows.nFlags, if_pos updateAll]
  obtain ⟨isFound, has⟩ := CBloomFilter.isRelevantAndUpdate_follows usable1 output before data updates run
  subst isFound
  obtain ⟨last, marks3, third, extend3, finds⟩ :=
    scan_spec (extend2.grows.usable usable1) (block.vtx.zipIdx.drop (i + 1))
  have both : block.vtx.zipIdx.foldlM scanTransaction ⟨filter, [], [], []⟩ = .ok last := by
    rw [split_entries here, List.foldlM_append, first, ok_bind, List.foldlM_cons, second, ok_bind, third]
  obtain rfl : after = last := Except.ok.inj (whole.symm.trans both)
  have sum : marks = marks1 ++ true :: marks3 := by
    have left := extension.vMatch
    rw [extend3.vMatch, extend2.vMatch, extend1.vMatch] at left
    simpa using left.symm
  have length : marks1.length = i := by
    rw [extend1.length, List.length_take, List.length_zipIdx]
    omega
  constructor
  · rw [sum, List.getElem?_append_right (by omega), length, Nat.sub_self]
    rfl
  · intro k other later listed spends
    rw [sum, List.getElem?_append_right (by omega), length, show k - i = (k - (i + 1)) + 1 by omega,
      List.getElem?_cons_succ]
    apply finds (k - (i + 1)) (other, k) (getElem?_drop_entries later listed)
    obtain ⟨txin, member, prevout⟩ := List.mem_map.mp spends
    refine .inr (.inr ⟨txin, member, .inl ?_⟩)
    rw [prevout]
    exact has

theorem CBlock.Checked.count_le_few {block : CBlock} (checked : block.Checked) :
    block.vtx.length ≤ MAX_BLOCK_SIZE / 60 := by
  have size := checked.size_le
  have each := sizes_ge checked.transactions
  simp only [CBlock.getSerializeSize, MAX_BLOCK_SIZE] at size ⊢
  omega

theorem CMerkleBlock.ofBlock_follows {block : CBlock} {filter : CBloomFilter} (usable : filter.Usable)
    (updateAll : filter.nFlags &&& BLOOM_UPDATE_MASK = BLOOM_UPDATE_ALL) (checked : block.Checked) :
    ∃ merkleBlock after, ofBlock block filter = .ok (merkleBlock, after) ∧ merkleBlock.Follows block filter := by
  obtain ⟨after, marks, run, extension, finds⟩ := scan_spec (s := ⟨filter, [], [], []⟩) usable block.vtx.zipIdx
  have hashes : after.vHashes = block.vtx.map CTransaction.getHash := by
    rw [extension.vHashes, List.nil_append]
    exact (List.map_map (l := block.vtx.zipIdx) (f := Prod.fst) (g := CTransaction.getHash)).symm.trans
      (by rw [List.zipIdx_map_fst])
  have vMatch : after.vMatch = marks := extension.vMatch
  have vMatchedTxn : after.vMatchedTxn = marked block.vtx.zipIdx marks := extension.vMatchedTxn
  obtain ⟨txn, received, s, built, reads, extracted, matches', sound⟩ :=
    CPartialMerkleTree.ofMatches_roundTrip (block.vtx.map CTransaction.getHash) marks
      (by simpa using checked.vtx_ne_nil) (by simpa using checked.count_le_few) (by simpa using extension.length)
  have member : ∀ (k : Nat) tx, block.vtx[k]? = some tx → marks[k]? = some true →
      (k, tx.getHash) ∈ after.vMatchedTxn := by
    intro k tx here isMarked
    have entry : block.vtx.zipIdx[k]? = some (tx, k) := by simp [here]
    rw [vMatchedTxn]
    exact mem_marked entry isMarked
  refine ⟨⟨block.toCBlockHeader, txn, after.vMatchedTxn⟩, after.filter, ?_, ?_, ?_, received, s, reads, ?_, ?_, sound⟩
  · rw [ofBlock, run, ok_bind, hashes, vMatch, built]
    rfl
  · intro i tx here has
    exact member i tx here (finds i (tx, i) (by simp [here]) has)
  · intro i n tx txout current here output reached data
    obtain ⟨now, later⟩ := scan_follows usable updateAll run extension here output reached data
    exact ⟨member i tx here now, fun k other behind listed spends =>
      member k other listed (later k other behind listed spends)⟩
  · rw [extracted, CBlock.buildMerkleTree_eq]
  · rw [matches', vMatchedTxn, marked_snd, ← hashes, extension.vHashes, List.nil_append]

/-- Of a block that passes CheckBlock, a filter that is updated with all outputs yields the
filtered block that wallets rely on if and only if it has bits for its hash functions. -/
theorem CMerkleBlock.ofBlock_follows_iff {settings : Settings} {block : CBlock} {fCheckPOW fCheckMerkleRoot : Bool}
    {done : Unit} (passes : block.checkBlock settings fCheckPOW fCheckMerkleRoot = .ok done) (filter : CBloomFilter)
    (updateAll : filter.nFlags &&& BLOOM_UPDATE_MASK = BLOOM_UPDATE_ALL) :
    (∃ merkleBlock after, ofBlock block filter = .ok (merkleBlock, after) ∧ merkleBlock.Follows block filter) ↔
      filter.Usable := by
  have checked := CBlock.Checked.of_checkBlock passes
  constructor
  · rintro ⟨merkleBlock, after, run, _⟩
    by_contra unusable
    cases listed : block.vtx with
    | nil => exact checked.vtx_ne_nil listed
    | cons tx rest =>
        rw [ofBlock, listed, List.zipIdx_cons, List.foldlM_cons, scanTransaction, CBloomFilter.isRelevantAndUpdate,
          CBloomFilter.contains_undefined unusable] at run
        cases run
  · intro usable
    exact ofBlock_follows usable updateAll checked

end

namespace Sample

theorem block_checked : (block 6 [coinbase, payment, forward]).checkBlock settings true true = .ok () := by
  decide +kernel

end Sample

open Sample

theorem CMerkleBlock.ofBlock_follows_iff_sample :
    (∃ merkleBlock after, ofBlock (block 6 [coinbase, payment, forward]) ⟨[0, 4], 3, 7, 1⟩ = .ok (merkleBlock, after) ∧
        merkleBlock.Follows (block 6 [coinbase, payment, forward]) ⟨[0, 4], 3, 7, 1⟩) ↔
      CBloomFilter.Usable ⟨[0, 4], 3, 7, 1⟩ :=
  ofBlock_follows_iff block_checked ⟨[0, 4], 3, 7, 1⟩ rfl

/-- With a filter without bytes no filtered block is made. -/
theorem CMerkleBlock.ofBlock_undefined :
    (block 6 [coinbase, payment, forward]).checkBlock settings true true = .ok () ∧
      CBloomFilter.isWithinSizeConstraints ⟨[], 1, 0, 1⟩ = true ∧
      ∀ result, ofBlock (block 6 [coinbase, payment, forward]) ⟨[], 1, 0, 1⟩ ≠ .ok result := by
  refine ⟨block_checked, by decide, ?_⟩
  intro result made
  rw [ofBlock, block, List.zipIdx_cons, List.foldlM_cons, scanTransaction, CBloomFilter.isRelevantAndUpdate,
    CBloomFilter.contains_undefined (by decide)] at made
  cases made

end BitCrystal
