import BitCrystal.MerkleRoot
import BitCrystal.CoinsSerialize

namespace BitCrystal

open Data

/-! # Partial Merkle trees -/

/-- A subset of the transaction hashes of a block, with what is needed to compute
the Merkle root from them. -/
structure CPartialMerkleTree where
  nTransactions : UInt32
  vBits : List Bool
  vHash : List UInt256
  fBad : Bool

/-- The number of nodes at a height, an unsigned int. -/
def calcTreeWidth (nTransactions : UInt32) (height : Nat) : Nat :=
  (nTransactions.toNat + 2 ^ height - 1) % 2 ^ 32 / 2 ^ height

/-- The loop that looks for the height of the root; a shift of an int by 32 is undefined. -/
def searchHeight (nTransactions : UInt32) : Nat → Nat → Except Failure Nat
  | 0, _ => .error .endless
  | room + 1, nHeight =>
      if calcTreeWidth nTransactions nHeight ≤ 1 then .ok nHeight else searchHeight nTransactions room (nHeight + 1)

/-- `int nHeight = 0; while (CalcTreeWidth(nHeight) > 1) nHeight++;`. -/
def treeHeight (nTransactions : UInt32) : Except Failure Nat :=
  searchHeight nTransactions 32 0

section

variable [Hashing]

/-! ## Building -/

def calcHash (nTransactions : UInt32) (vTxid : List UInt256) : Nat → Nat → Except Failure UInt256
  | 0, pos => expect vTxid[pos]? (.undefined "CalcHash")
  | height + 1, pos => do
      let left ← calcHash nTransactions vTxid height (pos * 2)
      if pos * 2 + 1 < calcTreeWidth nTransactions height then do
        let right ← calcHash nTransactions vTxid height (pos * 2 + 1)
        return hashPair left right
      else
        return hashPair left left

end

/-- The loop of TraverseAndBuild over the leaves under a node. -/
def parentOfMatch (nTransactions : UInt32) (vMatch : List Bool) (height pos : Nat) : Except Failure Bool :=
  (Merkle.under nTransactions.toNat height pos).foldlM (fun fParentOfMatch p => do
    let matched ← expect vMatch[p]? (.undefined "TraverseAndBuild")
    return fParentOfMatch || matched) false

section

variable [Hashing]

/-- TraverseAndBuild, with the bits and hashes that it appends. -/
def traverseAndBuild (nTransactions : UInt32) (vTxid : List UInt256) (vMatch : List Bool) :
    Nat → Nat → Except Failure (List Bool × List UInt256)
  | 0, pos => do
      let fParentOfMatch ← parentOfMatch nTransactions vMatch 0 pos
      let hash ← calcHash nTransactions vTxid 0 pos
      return ([fParentOfMatch], [hash])
  | height + 1, pos => do
      let fParentOfMatch ← parentOfMatch nTransactions vMatch (height + 1) pos
      if fParentOfMatch then do
        let (leftBits, leftHashes) ← traverseAndBuild nTransactions vTxid vMatch height (pos * 2)
        if pos * 2 + 1 < calcTreeWidth nTransactions height then do
          let (rightBits, rightHashes) ← traverseAndBuild nTransactions vTxid vMatch height (pos * 2 + 1)
          return (true :: (leftBits ++ rightBits), leftHashes ++ rightHashes)
        else
          return (true :: leftBits, leftHashes)
      else do
        let hash ← calcHash nTransactions vTxid (height + 1) pos
        return ([false], [hash])

/-- `CPartialMerkleTree(vTxid, vMatch)`. -/
def CPartialMerkleTree.ofMatches (vTxid : List UInt256) (vMatch : List Bool) :
    Except Failure CPartialMerkleTree := do
  let nTransactions := UInt32.ofNat vTxid.length
  let nHeight ← treeHeight nTransactions
  let (vBits, vHash) ← traverseAndBuild nTransactions vTxid vMatch nHeight 0
  return ⟨nTransactions, vBits, vHash, false⟩

end

/-! ## Serialization -/

/-- The bytes that hold the bits, least significant first. -/
def packBits (vBits : List Bool) : Bytes :=
  (List.range ((vBits.length + 7) / 8)).map fun k => availByte fun i => vBits[k * 8 + i]?.getD false

def readHash : Reader UInt256 := do
  let hash ← Reader.littleEndian 32
  return BitVec.ofNat 256 hash

namespace CPartialMerkleTree

def serialize (tree : CPartialMerkleTree) : Bytes :=
  littleEndian 4 tree.nTransactions.toNat ++
    (writeVector (fun hash : UInt256 => littleEndian 32 hash.toNat) tree.vHash ++
      writeVector (fun byte : UInt8 => [byte]) (packBits tree.vBits))

def unserialize : Reader CPartialMerkleTree := do
  let nTransactions ← Reader.littleEndian 4
  let vHash ← readVector readHash
  let vBytes ← readVector Reader.byte
  return ⟨UInt32.ofNat nTransactions, vBytes.flatMap availBits, vHash, false⟩

end CPartialMerkleTree

/-! ## Extracting -/

/-- How far the extraction has come. -/
structure Extraction where
  nBitsUsed : Nat
  nHashUsed : Nat
  vMatch : List UInt256
  fBad : Bool

namespace CPartialMerkleTree

variable (tree : CPartialMerkleTree)

/-- The stored hash of a node that is not descended into. -/
def useHash (isMatch : Bool) (s : Extraction) : Except Failure (UInt256 × Extraction) :=
  if tree.vHash.length ≤ s.nHashUsed then
    .ok (0, { s with fBad := true })
  else do
    let hash ← expect tree.vHash[s.nHashUsed]? (.undefined "TraverseAndExtract")
    return (hash, { s with
      nHashUsed := s.nHashUsed + 1
      vMatch := if isMatch then s.vMatch ++ [hash] else s.vMatch })

section

variable [Hashing]

def traverseAndExtract : Nat → Nat → Extraction → Except Failure (UInt256 × Extraction)
  | 0, _, s =>
      if tree.vBits.length ≤ s.nBitsUsed then
        .ok (0, { s with fBad := true })
      else do
        let fParentOfMatch ← expect tree.vBits[s.nBitsUsed]? (.undefined "TraverseAndExtract")
        tree.useHash fParentOfMatch { s with nBitsUsed := s.nBitsUsed + 1 }
  | height + 1, pos, s =>
      if tree.vBits.length ≤ s.nBitsUsed then
        .ok (0, { s with fBad := true })
      else do
        let fParentOfMatch ← expect tree.vBits[s.nBitsUsed]? (.undefined "TraverseAndExtract")
        if fParentOfMatch then do
          let (left, s) ← traverseAndExtract height (pos * 2) { s with nBitsUsed := s.nBitsUsed + 1 }
          if pos * 2 + 1 < calcTreeWidth tree.nTransactions height then do
            let (right, s) ← traverseAndExtract height (pos * 2 + 1) s
            return (hashPair left right, s)
          else
            return (hashPair left left, s)
        else
          tree.useHash false { s with nBitsUsed := s.nBitsUsed + 1 }

/-- What ExtractMatches returns once the tree has been traversed. -/
def verdict (hashMerkleRoot : UInt256) (s : Extraction) : UInt256 :=
  if s.fBad then 0
  else if (s.nBitsUsed + 7) / 8 ≠ (tree.vBits.length + 7) / 8 then 0
  else if s.nHashUsed ≠ tree.vHash.length then 0
  else hashMerkleRoot

/-- ExtractMatches, with the extraction that it has made. -/
def extractMatches : Except Failure (UInt256 × Extraction) := do
  let unused : Extraction := ⟨0, 0, [], tree.fBad⟩
  if tree.nTransactions = 0 then
    return (0, unused)
  else if MAX_BLOCK_SIZE / 60 < tree.nTransactions.toNat then
    return (0, unused)
  else if tree.nTransactions.toNat < tree.vHash.length then
    return (0, unused)
  else if tree.vBits.length < tree.vHash.length then
    return (0, unused)
  else do
    let nHeight ← treeHeight tree.nTransactions
    let (hashMerkleRoot, s) ← tree.traverseAndExtract nHeight 0 unused
    return (tree.verdict hashMerkleRoot s, s)

end

end CPartialMerkleTree

/-! ## The shape of the tree -/

theorem calcTreeWidth_eq {nTransactions : UInt32} (few : nTransactions.toNat ≤ MAX_BLOCK_SIZE / 60) {height : Nat}
    (low : height ≤ 30) : calcTreeWidth nTransactions height = Merkle.width nTransactions.toNat height := by
  have power : 2 ^ height ≤ 2 ^ 30 := Nat.pow_le_pow_right (by decide) low
  have few : nTransactions.toNat ≤ 16666 := few
  rw [calcTreeWidth, Merkle.width, Nat.mod_eq_of_lt (by omega)]

theorem top_le {n top : Nat} (few : n ≤ MAX_BLOCK_SIZE / 60) (isTop : Merkle.Top n top) : top ≤ 15 := by
  by_contra high
  have wide := isTop.least 15 (by omega)
  rw [Merkle.lt_width_iff] at wide
  have few : n ≤ 16666 := few
  omega

private theorem searchHeight_eq {nTransactions : UInt32} (few : nTransactions.toNat ≤ MAX_BLOCK_SIZE / 60) {top : Nat}
    (isTop : Merkle.Top nTransactions.toNat top) (room : Nat) {height : Nat} (below : height ≤ top)
    (enough : top < height + room) : searchHeight nTransactions room height = .ok top := by
  have low := top_le few isTop
  induction room generalizing height with
  | zero => omega
  | succ room ih =>
      rw [searchHeight, calcTreeWidth_eq few (by omega)]
      rcases Nat.lt_or_ge height top with lower | same
      · have wide := isTop.least height lower
        rw [if_neg (by omega)]
        exact ih (by omega) (by omega)
      · have equal : height = top := by omega
        subst equal
        rw [if_pos isTop.single]

theorem treeHeight_eq {nTransactions : UInt32} (few : nTransactions.toNat ≤ MAX_BLOCK_SIZE / 60) {top : Nat}
    (isTop : Merkle.Top nTransactions.toNat top) : treeHeight nTransactions = .ok top := by
  have low := top_le few isTop
  exact searchHeight_eq few isTop 32 (Nat.zero_le top) (by omega)

end BitCrystal
