import BitCrystal.MerkleRoot
import BitCrystal.WalletAdd

namespace BitCrystal

open Data

/-! # Branches of the Merkle tree -/

section

variable [Hashing] {txids : List UInt256}

theorem foldBranch_eq (hash : UInt256) (branch : List UInt256) (pos : Nat) :
    foldBranch hash branch pos = Merkle.climb hashPair hash branch pos := by
  induction branch generalizing hash pos with
  | nil => rfl
  | cons otherside branch ih =>
      have half : ((pos : Int) / 2) = (pos / 2 : Nat) := by omega
      have parity : (pos : Int) % 2 = 1 ↔ pos % 2 = 1 := by omega
      rw [foldBranch, Merkle.climb, half, ih, Merkle.children]
      by_cases odd : pos % 2 = 1
      · rw [if_pos odd, if_pos (parity.mpr odd)]
      · rw [if_neg odd, if_neg (mt parity.mp odd)]

theorem checkMerkleBranch_eq (hash : UInt256) (branch : List UInt256) (pos : Nat) :
    checkMerkleBranch hash branch pos = Merkle.climb hashPair hash branch pos := by
  rw [checkMerkleBranch, if_neg (by omega), foldBranch_eq]

/-- From each level on, GetMerkleBranch takes the nodes that lead to the root, where the
levels begin in the flattened tree as BuildMerkleTree has put them. -/
theorem merkleBranchFrom_climbs {top : Nat} (isTop : Merkle.Top txids.length top) (before : List UInt256)
    {room : Nat} (height pos : Nat) (below : height ≤ top) (enough : Merkle.width txids.length height ≤ room + 1)
    (within : pos < Merkle.width txids.length height) :
    let branch := merkleBranchFrom
      (before ++ merkleLevels room (Merkle.level hashPair (merkleLeaf txids) txids.length height)) room
      (Merkle.width txids.length height) pos before.length
    branch.length = top - height ∧
      Merkle.climb hashPair (merkleNode txids height pos) branch pos = merkleNode txids top 0 := by
  induction room generalizing height pos before with
  | zero =>
      have reached := isTop.eq_of_single below enough
      have first : pos = 0 := by omega
      rw [merkleBranchFrom, reached, first, Nat.sub_self]
      exact ⟨rfl, rfl⟩
  | succ room ih =>
      rw [merkleBranchFrom]
      by_cases single : Merkle.width txids.length height ≤ 1
      · have reached := isTop.eq_of_single below single
        have first : pos = 0 := by omega
        rw [if_pos single, reached, first, Nat.sub_self]
        exact ⟨rfl, rfl⟩
      · have lower := isTop.lt_of_wide below (by omega)
        have next := Merkle.width_succ txids.length height
        have length : (Merkle.level hashPair (merkleLeaf txids) txids.length height).length =
            Merkle.width txids.length height := by simp [Merkle.level]
        have tree : before ++ merkleLevels (room + 1) (Merkle.level hashPair (merkleLeaf txids) txids.length height) =
            (before ++ Merkle.level hashPair (merkleLeaf txids) txids.length height) ++
              merkleLevels room (Merkle.level hashPair (merkleLeaf txids) txids.length (height + 1)) := by
          rw [merkleLevels, if_neg (by rw [length]; exact single), merkleLevel_eq, Merkle.pairUp_level,
            List.append_assoc]
        obtain ⟨rest, climbs⟩ := ih (before ++ Merkle.level hashPair (merkleLeaf txids) txids.length height)
          (height + 1) (pos / 2) lower (by omega) (by omega)
        rw [List.length_append, length, next] at rest climbs
        have brother : (before ++ merkleLevels (room + 1)
            (Merkle.level hashPair (merkleLeaf txids) txids.length height))[before.length +
              min (pos ^^^ 1) (Merkle.width txids.length height - 1)]? =
            some (Merkle.sibling hashPair (merkleLeaf txids) txids.length height pos) := by
          have inside : min (pos ^^^ 1) (Merkle.width txids.length height - 1) < Merkle.width txids.length height := by
            omega
          rw [tree, List.append_assoc, List.getElem?_append_right (Nat.le_add_right _ _), Nat.add_sub_cancel_left,
            List.getElem?_append_left (by rw [length]; exact inside), Merkle.getElem?_level, if_pos inside, Merkle.sibling]
        rw [if_neg single, brother, Option.getD_some, tree]
        refine ⟨?_, ?_⟩
        · rw [List.length_cons, rest]
          omega
        · have parent : merkleNode txids (height + 1) (pos / 2) = _ := Merkle.node_parent within
          rw [Merkle.climb, ← parent]
          exact climbs

/-- The pairs that CheckMerkleBranch hashes. -/
def branchPairs (hash : UInt256) (vMerkleBranch : List UInt256) (nIndex : Nat) : List (UInt256 × UInt256) :=
  Merkle.climbed hashPair hash vMerkleBranch nIndex

/-- CheckMerkleBranch accepts the branch of each transaction of a block, whose length is the
depth of the tree, and where no two pairs of nodes have the same hash it accepts
branches of that length for the transaction at their index only. -/
theorem CBlock.merkleBranch_verifies (block : CBlock) {nIndex : Nat} (within : nIndex < block.vtx.length) :
    Merkle.Top block.vtx.length (block.getMerkleBranch nIndex).length ∧
      checkMerkleBranch block.vtx[nIndex].getHash (block.getMerkleBranch nIndex) nIndex = block.buildMerkleTree ∧
      ∀ (hash : UInt256) (vMerkleBranch : List UInt256),
        vMerkleBranch.length = (block.getMerkleBranch nIndex).length →
        Merkle.CollisionFree hashPair (fun left right => MerklePair (block.vtx.map CTransaction.getHash) left right ∨
          (left, right) ∈ branchPairs hash vMerkleBranch nIndex) →
        checkMerkleBranch hash vMerkleBranch nIndex = block.buildMerkleTree →
        hash = block.vtx[nIndex].getHash := by
  have count : (block.vtx.map CTransaction.getHash).length = block.vtx.length := List.length_map _
  have inside : nIndex < Merkle.width (block.vtx.map CTransaction.getHash).length 0 := by
    rw [Merkle.width_zero, count]
    exact within
  have nonempty : block.vtx.map CTransaction.getHash ≠ [] := by
    intro none
    rw [none, List.length_nil] at count
    omega
  have leaf : merkleNode (block.vtx.map CTransaction.getHash) 0 nIndex = block.vtx[nIndex].getHash := by
    rw [merkleNode, Merkle.node, merkleLeaf_eq (by rw [count]; exact within), List.getElem_map]
  obtain ⟨top, isTop⟩ := Merkle.exists_top (block.vtx.map CTransaction.getHash).length
  have enough : Merkle.width (block.vtx.map CTransaction.getHash).length 0 ≤ block.vtx.length + 1 := by
    rw [Merkle.width_zero, count]
    omega
  obtain ⟨length, climbs⟩ := merkleBranchFrom_climbs isTop [] 0 nIndex (Nat.zero_le top) enough inside
  rw [List.nil_append, merkleLeaves_eq, Merkle.width_zero, count, List.length_nil] at length climbs
  change (block.getMerkleBranch nIndex).length = top - 0 at length
  change Merkle.climb hashPair _ (block.getMerkleBranch nIndex) nIndex = _ at climbs
  rw [Nat.sub_zero] at length
  rw [buildMerkleTree_eq, merkleRoot_eq nonempty isTop, length]
  refine ⟨count ▸ isTop, ?_, fun hash vMerkleBranch depth free accepted => ?_⟩
  · rw [checkMerkleBranch_eq, ← leaf]
    exact climbs
  · rw [checkMerkleBranch_eq] at accepted
    have height : 0 + vMerkleBranch.length = top := by omega
    rw [← leaf]
    refine Merkle.climb_injective free (fun _ _ hashed => .inl hashed) (fun both member => .inr member) ?_ inside ?_ ?_
    · rw [height]
      exact isTop.least
    · rw [height]
      exact accepted
    · rw [height]
      exact isTop.single

end

namespace Sample

/-- Two transactions in a block. -/
def twoTransactions : CBlock := block 6 [coinbase, { coinbase with nLockTime := 1 }]

theorem twoTransactions_hashes :
    (twoTransactions.vtx.map CTransaction.getHash) = [coinbase.getHash, twoTransactions.vtx[1].getHash] := rfl

theorem twoTransactions_free :
    Merkle.CollisionFree hashPair fun left right => MerklePair (twoTransactions.vtx.map CTransaction.getHash) left right ∨
      (left, right) ∈ branchPairs twoTransactions.vtx[1].getHash [coinbase.getHash] 1 := by
  have single : ∀ {left right : UInt256}, MerklePair (twoTransactions.vtx.map CTransaction.getHash) left right ∨
      (left, right) ∈ branchPairs twoTransactions.vtx[1].getHash [coinbase.getHash] 1 →
        left = coinbase.getHash ∧ right = twoTransactions.vtx[1].getHash := by
    intro left right hashed
    rw [twoTransactions_hashes] at hashed
    cases hashed with
    | inl pair => exact merklePair_two pair
    | inr member => simpa [branchPairs, Merkle.climbed, Merkle.children] using member
  intro left right left' right' hashed hashed' _
  exact ⟨(single hashed).1.trans (single hashed').1.symm, (single hashed).2.trans (single hashed').2.symm⟩

end Sample

open Sample in
theorem CBlock.merkleBranch_verifies_two :
    checkMerkleBranch twoTransactions.vtx[1].getHash (twoTransactions.getMerkleBranch 1) 1 =
        twoTransactions.buildMerkleTree ∧
      (checkMerkleBranch twoTransactions.vtx[1].getHash [coinbase.getHash] 1 = twoTransactions.buildMerkleTree →
        twoTransactions.vtx[1].getHash = twoTransactions.vtx[1].getHash) := by
  have within : 1 < twoTransactions.vtx.length := by decide
  obtain ⟨_, verifies, only⟩ := twoTransactions.merkleBranch_verifies within
  exact ⟨verifies, only _ _ (by decide) twoTransactions_free⟩

end BitCrystal
