import BitCrystal.PartialMerkleTree

namespace BitCrystal

open Data

/-! # A partial Merkle tree comes back as it was built -/

/-- The elements from a position on begin with these. -/
def StandsAt {α : Type} (values part : List α) (place : Nat) : Prop :=
  part <+: values.drop place

namespace StandsAt

variable {α : Type} {values part more : List α} {first : α} {place : Nat}

theorem left (stands : StandsAt values (part ++ more) place) : StandsAt values part place :=
  (List.prefix_append part more).trans stands

theorem right (stands : StandsAt values (part ++ more) place) : StandsAt values more (place + part.length) := by
  obtain ⟨rest, split⟩ := stands
  refine ⟨rest, ?_⟩
  rw [← List.drop_drop, ← split, List.append_assoc, List.drop_left]

theorem head (stands : StandsAt values (first :: more) place) : values[place]? = some first := by
  obtain ⟨rest, split⟩ := stands
  have found := congrArg (·[0]?) split
  simpa using found.symm

theorem lt (stands : StandsAt values (first :: more) place) : ¬ values.length ≤ place := by
  intro beyond
  have found := stands.head
  rw [List.getElem?_eq_none beyond] at found
  contradiction

theorem tail (stands : StandsAt values (first :: more) place) : StandsAt values more (place + 1) :=
  (show StandsAt values ([first] ++ more) place from stands).right

end StandsAt

/-! ## Building -/

/-- A block's transaction hashes and the mask that selects some of them. -/
structure MatchMask (nTransactions : UInt32) (vTxid : List UInt256) (vMatch : List Bool) : Prop where
  count : nTransactions.toNat = vTxid.length
  few : vTxid.length ≤ MAX_BLOCK_SIZE / 60
  mask : vMatch.length = vTxid.length

theorem toNat_ofNat_of_few {count : Nat} (few : count ≤ MAX_BLOCK_SIZE / 60) :
    (UInt32.ofNat count).toNat = count := by
  have few : count ≤ 16666 := few
  rw [UInt32.toNat_ofNat']
  omega

/-- The selected hashes under a node, in block order. -/
def matchedUnder (vTxid : List UInt256) (vMatch : List Bool) (height pos : Nat) : List UInt256 :=
  ((Merkle.under vTxid.length height pos).filter fun p => vMatch[p]?.getD false).map (merkleLeaf vTxid)

variable {nTransactions : UInt32} {vTxid : List UInt256} {vMatch : List Bool}

theorem MatchMask.width_eq (mask : MatchMask nTransactions vTxid vMatch) {height : Nat} (low : height ≤ 30) :
    calcTreeWidth nTransactions height = Merkle.width vTxid.length height := by
  rw [calcTreeWidth_eq (by rw [mask.count]; exact mask.few) low, mask.count]

theorem MatchMask.parentOfMatch_eq (mask : MatchMask nTransactions vTxid vMatch) (height pos : Nat) :
    parentOfMatch nTransactions vMatch height pos =
      .ok ((Merkle.under vTxid.length height pos).any fun p => vMatch[p]?.getD false) := by
  have loop : ∀ (leaves : List Nat) (before : Bool), (∀ p ∈ leaves, p < vTxid.length) →
      leaves.foldlM (fun fParentOfMatch p => do
        let matched ← expect vMatch[p]? (Failure.undefined "TraverseAndBuild")
        return fParentOfMatch || matched) before =
          Except.ok (before || leaves.any fun p => vMatch[p]?.getD false) := by
    intro leaves
    induction leaves with
    | nil =>
        intro before _
        simp [pure, Except.pure]
    | cons p rest ih =>
        intro before within
        have inMask : p < vMatch.length := by
          rw [mask.mask]
          exact within p List.mem_cons_self
        have later : ∀ p ∈ rest, p < vTxid.length := fun q member => within q (List.mem_cons_of_mem p member)
        rw [List.foldlM_cons, List.getElem?_eq_getElem inMask]
        show List.foldlM _ (before || vMatch[p]) rest = _
        rw [ih _ later]
        simp [List.getElem?_eq_getElem inMask, Bool.or_assoc]
  rw [parentOfMatch, mask.count, loop _ false fun p member => Merkle.lt_of_mem_under member]
  rfl

theorem matchedUnder_nil {height pos : Nat}
    (none : ((Merkle.under vTxid.length height pos).any fun p => vMatch[p]?.getD false) = false) :
    matchedUnder vTxid vMatch height pos = [] := by
  rw [matchedUnder, List.filter_eq_nil_iff.mpr, List.map_nil]
  intro p member matched
  rw [List.any_eq_false] at none
  exact none p member matched

theorem matchedUnder_succ (height pos : Nat) :
    matchedUnder vTxid vMatch (height + 1) pos = matchedUnder vTxid vMatch height (pos * 2) ++
      if pos * 2 + 1 < Merkle.width vTxid.length height then matchedUnder vTxid vMatch height (pos * 2 + 1) else [] := by
  rw [matchedUnder, Merkle.under_succ, List.filter_append, List.map_append]
  split <;> rfl

theorem useHash_eq {tree : CPartialMerkleTree} {isMatch : Bool} {s : Extraction} {hash : UInt256}
    (stands : StandsAt tree.vHash [hash] s.nHashUsed) :
    tree.useHash isMatch s = .ok (hash, { s with
      nHashUsed := s.nHashUsed + 1
      vMatch := if isMatch then s.vMatch ++ [hash] else s.vMatch }) := by
  rw [CPartialMerkleTree.useHash, if_neg stands.lt, stands.head]
  rfl

section

variable [Hashing]

theorem MatchMask.calcHash_eq (mask : MatchMask nTransactions vTxid vMatch) {height pos : Nat} (low : height ≤ 30)
    (within : pos < Merkle.width vTxid.length height) :
    calcHash nTransactions vTxid height pos = .ok (merkleNode vTxid height pos) := by
  induction height generalizing pos with
  | zero =>
      have inBlock : pos < vTxid.length := by simpa using within
      rw [calcHash, List.getElem?_eq_getElem inBlock, merkleNode, Merkle.node, merkleLeaf_eq inBlock]
      rfl
  | succ height ih =>
      rw [calcHash, ih (by omega) (Merkle.left_lt within), mask.width_eq (by omega), merkleNode, Merkle.node_succ,
        Merkle.rightChild]
      split
      · rename_i right
        rw [ok_bind, ih (by omega) right]
        rfl
      · rfl

/-- What TraverseAndBuild appends for a node, and that TraverseAndExtract makes
the node and the selected hashes out of it. -/
structure Built (nTransactions : UInt32) (vTxid : List UInt256) (vMatch : List Bool) (height pos : Nat)
    (bits : List Bool) (hashes : List UInt256) : Prop where
  bitCount : bits.length < 2 ^ (height + 1)
  hashCount : hashes.length ≤ bits.length ∧ hashes.length ≤ (Merkle.under vTxid.length height pos).length
  extract : ∀ (tree : CPartialMerkleTree) (s : Extraction), tree.nTransactions = nTransactions →
    StandsAt tree.vBits bits s.nBitsUsed → StandsAt tree.vHash hashes s.nHashUsed →
    tree.traverseAndExtract height pos s = .ok (merkleNode vTxid height pos,
      { s with
        nBitsUsed := s.nBitsUsed + bits.length
        nHashUsed := s.nHashUsed + hashes.length
        vMatch := s.vMatch ++ matchedUnder vTxid vMatch height pos })

theorem Built.stub {height pos : Nat} (within : pos < Merkle.width vTxid.length (height + 1))
    (none : ((Merkle.under vTxid.length (height + 1) pos).any fun p => vMatch[p]?.getD false) = false) :
    Built nTransactions vTxid vMatch (height + 1) pos [false] [merkleNode vTxid (height + 1) pos] where
  bitCount := by
    have : 2 ^ 1 ≤ 2 ^ (height + 1 + 1) := Nat.pow_le_pow_right (by decide) (by omega)
    simp only [List.length_singleton]
    omega
  hashCount := ⟨Nat.le_refl 1, Merkle.under_length_pos within⟩
  extract tree s _ bits hashes := by
    rw [CPartialMerkleTree.traverseAndExtract, if_neg bits.lt, bits.head]
    show tree.useHash false _ = _
    rw [useHash_eq (s := { s with nBitsUsed := s.nBitsUsed + 1 }) hashes, matchedUnder_nil none, List.append_nil]
    rfl

theorem Built.leaf {pos : Nat} (within : pos < vTxid.length) :
    Built nTransactions vTxid vMatch 0 pos [vMatch[pos]?.getD false] [merkleNode vTxid 0 pos] where
  bitCount := show 1 < 2 ^ 1 by decide
  hashCount := ⟨Nat.le_refl 1, by rw [Merkle.under_zero within]; exact Nat.le_refl 1⟩
  extract tree s _ bits hashes := by
    rw [CPartialMerkleTree.traverseAndExtract, if_neg bits.lt, bits.head]
    show tree.useHash _ _ = _
    rw [useHash_eq (s := { s with nBitsUsed := s.nBitsUsed + 1 }) hashes, matchedUnder, Merkle.under_zero within]
    cases selects : vMatch[pos]?.getD false with
    | false => simp [selects]
    | true => simp [selects, Merkle.node]

theorem Built.branch (mask : MatchMask nTransactions vTxid vMatch) {height pos : Nat} (low : height ≤ 30)
    {leftBits : List Bool} {leftHashes : List UInt256}
    (left : Built nTransactions vTxid vMatch height (pos * 2) leftBits leftHashes)
    {rightBits : List Bool} {rightHashes : List UInt256}
    (right : pos * 2 + 1 < Merkle.width vTxid.length height →
      Built nTransactions vTxid vMatch height (pos * 2 + 1) rightBits rightHashes)
    (single : ¬ pos * 2 + 1 < Merkle.width vTxid.length height → rightBits = [] ∧ rightHashes = []) :
    Built nTransactions vTxid vMatch (height + 1) pos (true :: (leftBits ++ rightBits)) (leftHashes ++ rightHashes) := by
  have under := Merkle.under_succ vTxid.length height pos
  have leftCount := left.bitCount
  have leftHash := left.hashCount
  have power : 2 ^ (height + 1 + 1) = 2 ^ (height + 1) + 2 ^ (height + 1) := by
    rw [Nat.pow_succ]
    omega
  by_cases more : pos * 2 + 1 < Merkle.width vTxid.length height
  · have right := right more
    have rightCount := right.bitCount
    have rightHash := right.hashCount
    rw [if_pos more] at under
    refine ⟨?_, ?_, ?_⟩
    · simp only [List.length_cons, List.length_append]
      omega
    · rw [under]
      simp only [List.length_cons, List.length_append]
      omega
    · intro tree s same bits hashes
      rw [CPartialMerkleTree.traverseAndExtract, if_neg bits.lt, bits.head]
      have leftRun := left.extract tree { s with nBitsUsed := s.nBitsUsed + 1 } same bits.tail.left hashes.left
      have rightRun := right.extract tree { s with
        nBitsUsed := s.nBitsUsed + 1 + leftBits.length
        nHashUsed := s.nHashUsed + leftHashes.length
        vMatch := s.vMatch ++ matchedUnder vTxid vMatch height (pos * 2) } same bits.tail.right hashes.right
      have wide : pos * 2 + 1 < calcTreeWidth tree.nTransactions height := by
        rw [same, mask.width_eq low]
        exact more
      show (tree.traverseAndExtract height (pos * 2) { s with nBitsUsed := s.nBitsUsed + 1 } >>= _) = _
      rw [leftRun, ok_bind]
      simp only [if_pos wide, rightRun, ok_bind]
      rw [matchedUnder_succ, if_pos more]
      simp only [merkleNode, Merkle.node_succ, Merkle.rightChild, if_pos more, List.length_cons, List.length_append,
        List.append_assoc, pure, Except.pure, Nat.add_assoc, Nat.add_comm 1]
  · obtain ⟨rfl, rfl⟩ := single more
    rw [if_neg more, List.append_nil] at under
    refine ⟨?_, ?_, ?_⟩
    · simp only [List.length_cons, List.append_nil]
      omega
    · rw [under]
      simp only [List.length_cons, List.append_nil]
      omega
    · intro tree s same bits hashes
      rw [CPartialMerkleTree.traverseAndExtract, if_neg bits.lt, bits.head]
      have leftRun := left.extract tree { s with nBitsUsed := s.nBitsUsed + 1 } same bits.tail.left hashes.left
      have narrow : ¬ pos * 2 + 1 < calcTreeWidth tree.nTransactions height := by
        rw [same, mask.width_eq low]
        exact more
      show (tree.traverseAndExtract height (pos * 2) { s with nBitsUsed := s.nBitsUsed + 1 } >>= _) = _
      rw [leftRun, ok_bind]
      simp only [if_neg narrow]
      rw [matchedUnder_succ, if_neg more]
      simp only [merkleNode, Merkle.node_succ, Merkle.rightChild, if_neg more, List.length_cons, List.append_nil,
        pure, Except.pure, Nat.add_assoc, Nat.add_comm 1]

theorem MatchMask.traverseAndBuild_built (mask : MatchMask nTransactions vTxid vMatch) (height pos : Nat)
    (low : height ≤ 30) (within : pos < Merkle.width vTxid.length height) :
    ∃ bits hashes, traverseAndBuild nTransactions vTxid vMatch height pos = .ok (bits, hashes) ∧
      Built nTransactions vTxid vMatch height pos bits hashes := by
  induction height generalizing pos with
  | zero =>
      have inBlock : pos < vTxid.length := by simpa using within
      refine ⟨_, _, ?_, Built.leaf inBlock⟩
      rw [traverseAndBuild, mask.parentOfMatch_eq, Merkle.under_zero inBlock, mask.calcHash_eq low within]
      simp [pure, Except.pure]
  | succ height ih =>
      rw [traverseAndBuild, mask.parentOfMatch_eq]
      cases parent : (Merkle.under vTxid.length (height + 1) pos).any fun p => vMatch[p]?.getD false with
      | false =>
          refine ⟨_, _, ?_, Built.stub within parent⟩
          rw [mask.calcHash_eq low within]
          rfl
      | true =>
          obtain ⟨leftBits, leftHashes, leftRun, left⟩ := ih _ (by omega) (Merkle.left_lt within)
          by_cases more : pos * 2 + 1 < Merkle.width vTxid.length height
          · obtain ⟨rightBits, rightHashes, rightRun, right⟩ := ih _ (by omega) more
            refine ⟨_, _, ?_, Built.branch mask (by omega) left (fun _ => right) (fun single => absurd more single)⟩
            rw [ok_bind, if_pos rfl, leftRun, ok_bind, mask.width_eq (by omega)]
            simp only [if_pos more, rightRun, ok_bind, pure, Except.pure]
          · refine ⟨_, _, ?_, Built.branch mask (by omega) left (fun right => absurd right more)
              (fun _ => (⟨rfl, rfl⟩ : ([] : List Bool) = [] ∧ ([] : List UInt256) = []))⟩
            rw [ok_bind, if_pos rfl, leftRun, ok_bind, mask.width_eq (by omega)]
            simp only [if_neg more, List.append_nil, pure, Except.pure]

end

/-! ## The wire -/

theorem readHash_reads (hash : UInt256) : Reads readHash (littleEndian 32 hash.toNat) hash := by
  have reads := (Reads.littleEndian 32 hash.toNat (by simpa using hash.isLt)).map (BitVec.ofNat 256)
  rwa [BitVec.ofNat_toNat, BitVec.setWidth_eq] at reads

theorem unpackBits_packBits (vBits : List Bool) :
    vBits <+: (packBits vBits).flatMap availBits ∧
      ((packBits vBits).flatMap availBits).length = (vBits.length + 7) / 8 * 8 := by
  have unpacked : (packBits vBits).flatMap availBits =
      (List.range ((vBits.length + 7) / 8 * 8)).map fun p => vBits[p]?.getD false := by
    rw [packBits]
    generalize (vBits.length + 7) / 8 = count
    induction count with
    | zero => rfl
    | succ count ih =>
        rw [List.range_succ, List.map_append, List.flatMap_append, ih, Nat.succ_mul, List.range_add, List.map_append]
        simp [availBits_availByte, Function.comp_def]
  refine ⟨?_, by rw [unpacked]; simp⟩
  rw [unpacked, List.prefix_iff_eq_take]
  apply List.ext_getElem?
  intro p
  rw [List.getElem?_take]
  by_cases within : p < vBits.length
  · have covered : p < (vBits.length + 7) / 8 * 8 := by omega
    simp [within, List.getElem?_range covered]
  · simp [within]

theorem CPartialMerkleTree.reads {tree : CPartialMerkleTree} (hashes : tree.vHash.length ≤ MAX_SIZE)
    (bits : tree.vBits.length ≤ MAX_SIZE) :
    Reads unserialize tree.serialize
      ⟨tree.nTransactions, (packBits tree.vBits).flatMap availBits, tree.vHash, false⟩ := by
  have nTransactions := Reads.littleEndian 4 tree.nTransactions.toNat (by simpa using tree.nTransactions.toNat_lt)
  have vHash : Reads _ _ (tree.vHash.map id) := readVector_reads tree.vHash hashes fun hash _ => readHash_reads hash
  have packed : (packBits tree.vBits).length ≤ MAX_SIZE := by
    rw [packBits, List.length_map, List.length_range]
    omega
  have vBytes : Reads _ _ ((packBits tree.vBits).map id) :=
    readVector_reads (packBits tree.vBits) packed fun byte _ => Reads.byte byte
  rw [List.map_id] at vHash vBytes
  refine nTransactions.bind (vHash.bind ?_)
  rw [UInt32.ofNat_toNat]
  exact vBytes.map fun vBytes => (⟨tree.nTransactions, vBytes.flatMap availBits, tree.vHash, false⟩ : CPartialMerkleTree)

/-! ## The round trip -/

/-- The selected hashes of a block, in block order. -/
def selected (vTxid : List UInt256) (vMatch : List Bool) : List UInt256 :=
  ((vTxid.zip vMatch).filter Prod.snd).map Prod.fst

theorem matchedUnder_top (mask : vMatch.length = vTxid.length) {top : Nat}
    (single : Merkle.width vTxid.length top ≤ 1) : matchedUnder vTxid vMatch top 0 = selected vTxid vMatch := by
  have zipped : vTxid.zip vMatch =
      (List.range vTxid.length).map fun p => (merkleLeaf vTxid p, vMatch[p]?.getD false) := by
    apply List.ext_getElem?
    intro p
    by_cases within : p < vTxid.length
    · have inMask : p < vMatch.length := by omega
      rw [List.getElem?_eq_getElem (by simpa [mask] using within), List.getElem?_map, List.getElem?_range within]
      simp [merkleLeaf, within, inMask]
    · rw [List.getElem?_eq_none (by simp; omega), List.getElem?_eq_none (by simpa using within)]
  rw [matchedUnder, Merkle.under_top single, selected, zipped, List.filter_map, List.map_map]
  rfl

section

variable [Hashing]

/-- A tree that was built for a block, whatever bits pad it, yields the Merkle
root and the selected hashes. -/
theorem MatchMask.extractMatches_built (mask : MatchMask nTransactions vTxid vMatch) (nonempty : vTxid ≠ [])
    {top : Nat} (isTop : Merkle.Top vTxid.length top) {bits padded : List Bool} {hashes : List UInt256}
    (built : Built nTransactions vTxid vMatch top 0 bits hashes) (whole : bits <+: padded)
    (padding : padded.length = (bits.length + 7) / 8 * 8) :
    CPartialMerkleTree.extractMatches ⟨nTransactions, padded, hashes, false⟩ =
      .ok (merkleRoot vTxid, ⟨bits.length, hashes.length, matchedUnder vTxid vMatch top 0, false⟩) := by
  have positive := List.length_pos_of_ne_nil nonempty
  have few := mask.few
  have all : (Merkle.under vTxid.length top 0).length = vTxid.length := by
    rw [Merkle.under_top isTop.single, List.length_range]
  have hashCount := built.hashCount
  have longer := whole.length_le
  have some : nTransactions ≠ 0 := by
    intro zero
    have count := mask.count
    rw [zero] at count
    exact absurd count.symm (Nat.ne_of_gt positive)
  have height : treeHeight nTransactions = .ok top :=
    treeHeight_eq (by rw [mask.count]; exact few) (by rw [mask.count]; exact isTop)
  have run := built.extract ⟨nTransactions, padded, hashes, false⟩ ⟨0, 0, [], false⟩ rfl
    (by rw [StandsAt]; exact whole) (by rw [StandsAt]; exact List.prefix_refl hashes)
  simp only [Nat.zero_add, List.nil_append] at run
  rw [CPartialMerkleTree.extractMatches]
  simp only [if_neg some, mask.count, if_neg (Nat.not_lt.mpr few),
    if_neg (show ¬ vTxid.length < hashes.length by omega), if_neg (show ¬ padded.length < hashes.length by omega),
    height, ok_bind, run]
  rw [merkleRoot_eq nonempty isTop, CPartialMerkleTree.verdict]
  simp only [Bool.false_eq_true, if_false]
  rw [if_neg (by rw [padding]; omega), if_neg (by simp)]
  rfl

/-- A partial Merkle tree that was built for a block, serialized and read back
yields the block's Merkle root and exactly the selected transactions. -/
theorem CPartialMerkleTree.ofMatches_roundTrip (vTxid : List UInt256) (vMatch : List Bool) (nonempty : vTxid ≠ [])
    (few : vTxid.length ≤ MAX_BLOCK_SIZE / 60) (mask : vMatch.length = vTxid.length) :
    ∃ built received s, ofMatches vTxid vMatch = .ok built ∧ Reads unserialize built.serialize received ∧
      received.extractMatches = .ok (merkleRoot vTxid, s) ∧ s.vMatch = selected vTxid vMatch ∧ s.fBad = false := by
  obtain ⟨top, isTop⟩ := Merkle.exists_top vTxid.length
  have low := top_le few isTop
  have matchMask : MatchMask (UInt32.ofNat vTxid.length) vTxid vMatch := ⟨toNat_ofNat_of_few few, few, mask⟩
  have positive := List.length_pos_of_ne_nil nonempty
  obtain ⟨bits, hashes, run, built⟩ := matchMask.traverseAndBuild_built top 0 (by omega)
    (Merkle.width_pos positive top)
  have height : treeHeight (UInt32.ofNat vTxid.length) = .ok top :=
    treeHeight_eq (by rw [matchMask.count]; exact few) (by rw [matchMask.count]; exact isTop)
  have hashCount : hashes.length ≤ MAX_SIZE := by
    have bound := built.hashCount.2
    rw [Merkle.under_top isTop.single, List.length_range] at bound
    exact Nat.le_trans (Nat.le_trans bound few) (by decide)
  have bitCount : bits.length ≤ MAX_SIZE := by
    have power : 2 ^ (top + 1) ≤ 2 ^ 16 := Nat.pow_le_pow_right (by decide) (by omega)
    exact Nat.le_trans (Nat.le_of_lt built.bitCount) (Nat.le_trans power (by decide))
  obtain ⟨whole, padding⟩ := unpackBits_packBits bits
  refine ⟨⟨UInt32.ofNat vTxid.length, bits, hashes, false⟩, _, _, ?_, CPartialMerkleTree.reads hashCount bitCount,
    matchMask.extractMatches_built nonempty isTop built whole padding, matchedUnder_top mask isTop.single, rfl⟩
  rw [ofMatches, height, ok_bind, run]
  rfl

end

open Sample in
theorem CPartialMerkleTree.ofMatches_roundTrip_sample : ∃ built received s,
    ofMatches [0x77, 0x78, 0x79] [false, false, true] = .ok built ∧ Reads unserialize built.serialize received ∧
      received.extractMatches = .ok (merkleRoot [0x77, 0x78, 0x79], s) ∧ s.vMatch = [0x79] ∧ s.fBad = false :=
  ofMatches_roundTrip [0x77, 0x78, 0x79] [false, false, true] (by decide) (by decide) rfl

end BitCrystal
