import BitCrystal.PartialMerkleRoundTrip

namespace BitCrystal

open Data

/-! # What an adversary can make ExtractMatches accept -/

namespace CPartialMerkleTree

variable {tree : CPartialMerkleTree}

theorem useHash_cases (isMatch : Bool) (s : Extraction) :
    ∃ hash after, tree.useHash isMatch s = .ok (hash, after) ∧
      (after.fBad = false → s.fBad = false ∧ after.vMatch = s.vMatch ++ if isMatch then [hash] else []) := by
  rw [useHash]
  split
  · exact ⟨0, _, rfl, fun good => by simp at good⟩
  · rename_i within
    rw [List.getElem?_eq_getElem (Nat.lt_of_not_le within)]
    refine ⟨tree.vHash[s.nHashUsed], _, rfl, fun good => ⟨good, ?_⟩⟩
    cases isMatch <;> simp

theorem verdict_ne_zero {root : UInt256} {s : Extraction} (accepted : tree.verdict root s ≠ 0) :
    tree.verdict root s = root ∧ s.fBad = false ∧ s.nHashUsed = tree.vHash.length ∧
      (s.nBitsUsed + 7) / 8 = (tree.vBits.length + 7) / 8 := by
  unfold verdict at accepted ⊢
  split_ifs at accepted ⊢ with bad bits hashes
  · exact absurd rfl accepted
  · exact absurd rfl accepted
  · exact absurd rfl accepted
  · exact ⟨rfl, by simpa using bad, not_not.mp hashes, not_not.mp bits⟩

section

variable [Hashing]

/-- The pairs that TraverseAndExtract hashes. -/
def extractPairs (tree : CPartialMerkleTree) : Nat → Nat → Extraction → List (UInt256 × UInt256)
  | 0, _, _ => []
  | height + 1, pos, s =>
      if tree.vBits[s.nBitsUsed]? = some true then
        match tree.traverseAndExtract height (pos * 2) { s with nBitsUsed := s.nBitsUsed + 1 } with
        | .error _ => []
        | .ok (left, next) =>
            tree.extractPairs height (pos * 2) { s with nBitsUsed := s.nBitsUsed + 1 } ++
              if pos * 2 + 1 < calcTreeWidth tree.nTransactions height then
                match tree.traverseAndExtract height (pos * 2 + 1) next with
                | .error _ => []
                | .ok (right, _) => (left, right) :: tree.extractPairs height (pos * 2 + 1) next
              else [(left, left)]
      else []

/-- The pairs that ExtractMatches hashes. -/
def hashedPairs (tree : CPartialMerkleTree) : List (UInt256 × UInt256) :=
  match treeHeight tree.nTransactions with
  | .error _ => []
  | .ok nHeight => tree.extractPairs nHeight 0 ⟨0, 0, [], tree.fBad⟩

/-- How TraverseAndExtract treats a node above the leaves. -/
inductive Descends (tree : CPartialMerkleTree) (height pos : Nat) (s : Extraction) :
    UInt256 → Extraction → Prop where
  | exhausted : tree.vBits.length ≤ s.nBitsUsed → Descends tree height pos s 0 { s with fBad := true }
  | stub {hash : UInt256} {after : Extraction} :
      tree.useHash false { s with nBitsUsed := s.nBitsUsed + 1 } = .ok (hash, after) →
      Descends tree height pos s hash after
  | both {left right : UInt256} {next after : Extraction} : tree.vBits[s.nBitsUsed]? = some true →
      tree.traverseAndExtract height (pos * 2) { s with nBitsUsed := s.nBitsUsed + 1 } = .ok (left, next) →
      pos * 2 + 1 < calcTreeWidth tree.nTransactions height →
      tree.traverseAndExtract height (pos * 2 + 1) next = .ok (right, after) →
      Descends tree height pos s (hashPair left right) after
  | single {left : UInt256} {next : Extraction} : tree.vBits[s.nBitsUsed]? = some true →
      tree.traverseAndExtract height (pos * 2) { s with nBitsUsed := s.nBitsUsed + 1 } = .ok (left, next) →
      ¬ pos * 2 + 1 < calcTreeWidth tree.nTransactions height →
      Descends tree height pos s (hashPair left left) next

/-- TraverseAndExtract always returns; no index is out of range. -/
theorem traverseAndExtract_returns (tree : CPartialMerkleTree) (height pos : Nat) (s : Extraction) :
    ∃ value after, tree.traverseAndExtract height pos s = .ok (value, after) := by
  induction height generalizing pos s with
  | zero =>
      rw [traverseAndExtract]
      split
      · exact ⟨_, _, rfl⟩
      · rename_i within
        rw [List.getElem?_eq_getElem (Nat.lt_of_not_le within)]
        obtain ⟨hash, after, run, _⟩ := tree.useHash_cases tree.vBits[s.nBitsUsed]
          { s with nBitsUsed := s.nBitsUsed + 1 }
        exact ⟨hash, after, run⟩
  | succ height ih =>
      rw [traverseAndExtract]
      split
      · exact ⟨_, _, rfl⟩
      · rename_i within
        rw [List.getElem?_eq_getElem (Nat.lt_of_not_le within)]
        cases bit : tree.vBits[s.nBitsUsed] with
        | false =>
            obtain ⟨hash, after, run, _⟩ := tree.useHash_cases false { s with nBitsUsed := s.nBitsUsed + 1 }
            exact ⟨hash, after, run⟩
        | true =>
            obtain ⟨left, next, leftRun⟩ := ih (pos * 2) { s with nBitsUsed := s.nBitsUsed + 1 }
            obtain ⟨right, after, rightRun⟩ := ih (pos * 2 + 1) next
            simp only [expect, ok_bind, if_true, leftRun]
            split
            · rw [rightRun]
              exact ⟨_, _, rfl⟩
            · exact ⟨_, _, rfl⟩

theorem traverseAndExtract_succ {height pos : Nat} {s after : Extraction} {value : UInt256}
    (run : tree.traverseAndExtract (height + 1) pos s = .ok (value, after)) :
    Descends tree height pos s value after := by
  rw [traverseAndExtract] at run
  split at run
  · rename_i beyond
    cases run
    exact .exhausted beyond
  · rename_i within
    have found := List.getElem?_eq_getElem (Nat.lt_of_not_le within)
    rw [found] at run
    cases bit : tree.vBits[s.nBitsUsed] with
    | false =>
        rw [bit] at run
        exact .stub run
    | true =>
        obtain ⟨left, next, leftRun⟩ := tree.traverseAndExtract_returns height (pos * 2)
          { s with nBitsUsed := s.nBitsUsed + 1 }
        simp only [bit, expect, ok_bind, if_true, leftRun] at run
        rw [bit] at found
        split at run
        · rename_i more
          simp only [bind_eq_ok, Prod.exists, pure_eq_ok, Prod.mk.injEq] at run
          obtain ⟨right, last, rightRun, rfl, rfl⟩ := run
          exact .both found leftRun more rightRun
        · rename_i alone
          cases run
          exact .single found leftRun alone

theorem fBad_of_traverseAndExtract {height pos : Nat} {s after : Extraction} {value : UInt256}
    (run : tree.traverseAndExtract height pos s = .ok (value, after)) (good : after.fBad = false) :
    s.fBad = false := by
  induction height generalizing pos s after value with
  | zero =>
      rw [traverseAndExtract] at run
      split at run
      · cases run
        contradiction
      · rename_i within
        rw [List.getElem?_eq_getElem (Nat.lt_of_not_le within)] at run
        obtain ⟨hash, last, use, keeps⟩ := tree.useHash_cases tree.vBits[s.nBitsUsed]
          { s with nBitsUsed := s.nBitsUsed + 1 }
        cases use.symm.trans run
        exact (keeps good).1
  | succ height ih =>
      cases traverseAndExtract_succ run with
      | exhausted => contradiction
      | stub use =>
          obtain ⟨hash, last, again, keeps⟩ := tree.useHash_cases false { s with nBitsUsed := s.nBitsUsed + 1 }
          cases again.symm.trans use
          exact (keeps good).1
      | both _ leftRun _ rightRun =>
          have before := ih leftRun (ih rightRun good)
          exact before
      | single _ leftRun _ =>
          have before := ih leftRun good
          exact before

/-- A node of the block's tree that is extracted yields only transactions of the
block, in order: where the hashes agree, so do the children. -/
theorem traverseAndExtract_sound {vTxid : List UInt256} {Pairs : UInt256 → UInt256 → Prop}
    (free : Merkle.CollisionFree hashPair Pairs)
    (block : ∀ left right, MerklePair vTxid left right → Pairs left right)
    (count : tree.nTransactions.toNat = vTxid.length) (few : vTxid.length ≤ MAX_BLOCK_SIZE / 60) {height pos : Nat}
    (low : height ≤ 30) (wide : ∀ lower < height, 1 < Merkle.width vTxid.length lower)
    (within : pos < Merkle.width vTxid.length height) {s after : Extraction}
    (hashed : ∀ pair ∈ tree.extractPairs height pos s, Pairs pair.1 pair.2)
    (run : tree.traverseAndExtract height pos s = .ok (merkleNode vTxid height pos, after))
    (good : after.fBad = false) :
    ∃ found, after.vMatch = s.vMatch ++ found ∧
      found.Sublist ((Merkle.under vTxid.length height pos).map (merkleLeaf vTxid)) := by
  induction height generalizing pos s after with
  | zero =>
      have inBlock : pos < vTxid.length := by simpa using within
      have leafEq : merkleLeaf vTxid pos = merkleNode vTxid 0 pos := rfl
      rw [Merkle.under_zero inBlock, List.map_singleton, leafEq]
      generalize merkleNode vTxid 0 pos = value at run
      rw [traverseAndExtract] at run
      split at run
      · cases run
        contradiction
      · rename_i inBits
        rw [List.getElem?_eq_getElem (Nat.lt_of_not_le inBits)] at run
        obtain ⟨hash, last, use, keeps⟩ := tree.useHash_cases tree.vBits[s.nBitsUsed]
          { s with nBitsUsed := s.nBitsUsed + 1 }
        cases use.symm.trans run
        refine ⟨_, (keeps good).2, ?_⟩
        split
        · exact List.Sublist.refl _
        · exact List.nil_sublist _
  | succ height ih =>
      have widthEq : calcTreeWidth tree.nTransactions height = Merkle.width vTxid.length height := by
        rw [calcTreeWidth_eq (by rw [count]; exact few) (by omega), count]
      have lowerWide : ∀ lower < height, 1 < Merkle.width vTxid.length lower :=
        fun lower less => wide lower (by omega)
      have pair := block _ _ ⟨height, pos, wide height (by omega), within, rfl, rfl⟩
      generalize valueEq : merkleNode vTxid (height + 1) pos = value at run
      cases traverseAndExtract_succ run with
      | exhausted => contradiction
      | stub use =>
          obtain ⟨hash, last, again, keeps⟩ := tree.useHash_cases false { s with nBitsUsed := s.nBitsUsed + 1 }
          cases again.symm.trans use
          exact ⟨[], (keeps good).2, List.nil_sublist _⟩
      | @both left right next _ bit leftRun more rightRun =>
          have pairs : tree.extractPairs (height + 1) pos s =
              tree.extractPairs height (pos * 2) { s with nBitsUsed := s.nBitsUsed + 1 } ++
                ((left, right) :: tree.extractPairs height (pos * 2 + 1) next) := by
            rw [extractPairs, if_pos bit, leftRun]
            simp only [if_pos more, rightRun]
          rw [pairs] at hashed
          have extracted : Pairs left right := hashed (left, right) (by simp)
          obtain ⟨leftEq, rightEq⟩ := free _ _ _ _ pair extracted valueEq
          rw [widthEq] at more
          rw [Merkle.rightChild, if_pos more] at rightEq
          subst leftEq rightEq
          obtain ⟨leftFound, leftMatch, leftSub⟩ := ih (by omega) lowerWide (Merkle.left_lt within)
            (fun pair member => hashed pair (by simp [member])) leftRun (fBad_of_traverseAndExtract rightRun good)
          obtain ⟨rightFound, rightMatch, rightSub⟩ := ih (by omega) lowerWide more
            (fun pair member => hashed pair (by simp [member])) rightRun good
          refine ⟨leftFound ++ rightFound, ?_, ?_⟩
          · rw [rightMatch, leftMatch, List.append_assoc]
          · rw [Merkle.under_succ, if_pos more, List.map_append]
            exact leftSub.append rightSub
      | @single left next bit leftRun alone =>
          have pairs : tree.extractPairs (height + 1) pos s =
              tree.extractPairs height (pos * 2) { s with nBitsUsed := s.nBitsUsed + 1 } ++ [(left, left)] := by
            rw [extractPairs, if_pos bit, leftRun]
            simp only [if_neg alone]
          rw [pairs] at hashed
          have extracted : Pairs left left := hashed (left, left) (by simp)
          obtain ⟨leftEq, _⟩ := free _ _ _ _ pair extracted valueEq
          subst leftEq
          obtain ⟨found, matched, sub⟩ := ih (by omega) lowerWide (Merkle.left_lt within)
            (fun pair member => hashed pair (by simp [member])) leftRun good
          refine ⟨found, matched, ?_⟩
          rw [widthEq] at alone
          rw [Merkle.under_succ, if_neg alone, List.append_nil]
          exact sub

/-- A run of ExtractMatches: an early return of 0, or a traversal of the tree. -/
theorem extractMatches_cases (tree : CPartialMerkleTree) :
    (∃ s, tree.extractMatches = .ok (0, s)) ∨
      ∃ top value s, tree.nTransactions.toNat ≤ MAX_BLOCK_SIZE / 60 ∧ 0 < tree.nTransactions.toNat ∧
        Merkle.Top tree.nTransactions.toNat top ∧
        tree.traverseAndExtract top 0 ⟨0, 0, [], tree.fBad⟩ = .ok (value, s) ∧
        tree.extractMatches = .ok (tree.verdict value s, s) := by
  rw [extractMatches]
  dsimp only
  by_cases none : tree.nTransactions = 0
  · exact .inl ⟨_, by rw [if_pos none]; rfl⟩
  rw [if_neg none]
  by_cases many : MAX_BLOCK_SIZE / 60 < tree.nTransactions.toNat
  · exact .inl ⟨_, by rw [if_pos many]; rfl⟩
  rw [if_neg many]
  by_cases hashes : tree.nTransactions.toNat < tree.vHash.length
  · exact .inl ⟨_, by rw [if_pos hashes]; rfl⟩
  rw [if_neg hashes]
  by_cases bits : tree.vBits.length < tree.vHash.length
  · exact .inl ⟨_, by rw [if_pos bits]; rfl⟩
  rw [if_neg bits]
  obtain ⟨top, isTop⟩ := Merkle.exists_top tree.nTransactions.toNat
  obtain ⟨value, s, run⟩ := tree.traverseAndExtract_returns top 0 ⟨0, 0, [], tree.fBad⟩
  have positive : 0 < tree.nTransactions.toNat := by
    rcases Nat.eq_zero_or_pos tree.nTransactions.toNat with zero | positive
    · exact absurd (UInt32.toNat_inj.mp zero) none
    · exact positive
  refine .inr ⟨top, value, s, Nat.le_of_not_lt many, positive, isTop, run, ?_⟩
  rw [treeHeight_eq (Nat.le_of_not_lt many) isTop, ok_bind, run]
  rfl

/-- ExtractMatches ends for every tree, refuses trees with unused bits or hashes,
and never authenticates a transaction that is not in the block. -/
theorem extractMatches_sound (tree : CPartialMerkleTree) :
    ∃ root s, tree.extractMatches = .ok (root, s) ∧
      (s.nHashUsed ≠ tree.vHash.length ∨ (s.nBitsUsed + 7) / 8 ≠ (tree.vBits.length + 7) / 8 → root = 0) ∧
      ∀ vTxid : List UInt256, tree.nTransactions.toNat = vTxid.length →
        (Merkle.CollisionFree hashPair fun left right => MerklePair vTxid left right ∨ (left, right) ∈ tree.hashedPairs) →
        root = merkleRoot vTxid → merkleRoot vTxid ≠ 0 → s.vMatch.Sublist vTxid := by
  rcases tree.extractMatches_cases with ⟨s, run⟩ | ⟨top, value, s, few, positive, isTop, traversal, run⟩
  · exact ⟨0, s, run, fun _ => rfl, fun vTxid _ _ same nonzero => absurd same.symm nonzero⟩
  · refine ⟨_, s, run, ?_, ?_⟩
    · intro unused
      by_contra accepted
      obtain ⟨_, _, hashes, bits⟩ := verdict_ne_zero accepted
      rcases unused with unused | unused
      · exact unused hashes
      · exact unused bits
    · intro vTxid count free same nonzero
      obtain ⟨root, good, _⟩ := verdict_ne_zero (by rw [same]; exact nonzero)
      have nonempty : vTxid ≠ [] := List.ne_nil_of_length_pos (by omega)
      rw [count] at isTop few
      have low := top_le few isTop
      rw [← root, same, merkleRoot_eq nonempty isTop] at traversal
      have pairs : tree.hashedPairs = tree.extractPairs top 0 ⟨0, 0, [], tree.fBad⟩ := by
        rw [hashedPairs, treeHeight_eq (by rw [count]; exact few) (by rw [count]; exact isTop)]
      obtain ⟨found, matched, sub⟩ := traverseAndExtract_sound free (fun _ _ hashed => .inl hashed) count few
        (by omega) isTop.least (Merkle.width_pos (by omega) top)
        (fun pair member => .inr (by rw [pairs]; exact member)) traversal good
      rw [matched, List.nil_append]
      rw [Merkle.under_top isTop.single] at sub
      have leaves : (List.range vTxid.length).map (merkleLeaf vTxid) = vTxid := by
        have level := merkleLeaves_eq vTxid
        rwa [Merkle.level, Merkle.width_zero] at level
      rwa [leaves] at sub

end

end CPartialMerkleTree

namespace Sample

/-- A tree that shows the second of two transactions. -/
def partialTree : CPartialMerkleTree := ⟨2, [true, false, true, false, false, false, false, false], [0x77, 0x78], false⟩

theorem partialTree_free : Merkle.CollisionFree hashPair fun left right =>
    MerklePair [0x77, 0x78] left right ∨ (left, right) ∈ partialTree.hashedPairs := by
  have extracted : partialTree.hashedPairs = [(0x77, 0x78)] := by decide
  have single : ∀ {left right : UInt256},
      MerklePair [0x77, 0x78] left right ∨ (left, right) ∈ partialTree.hashedPairs → left = 0x77 ∧ right = 0x78 := by
    intro left right hashed
    rw [extracted] at hashed
    cases hashed with
    | inl pair => exact merklePair_two pair
    | inr member => simpa using member
  intro left right left' right' hashed hashed' _
  exact ⟨(single hashed).1.trans (single hashed').1.symm, (single hashed).2.trans (single hashed').2.symm⟩

end Sample

open Sample

theorem CPartialMerkleTree.extractMatches_sound_sample :
    ∃ root s, partialTree.extractMatches = .ok (root, s) ∧ s.vMatch.Sublist [0x77, 0x78] := by
  obtain ⟨root, s, run, _, sound⟩ := CPartialMerkleTree.extractMatches_sound partialTree
  have genuine : (partialTree.extractMatches.toOption.map Prod.fst) = some (merkleRoot [0x77, 0x78]) := by
    decide +kernel
  rw [run] at genuine
  exact ⟨root, s, run, sound [0x77, 0x78] rfl partialTree_free (Option.some.inj genuine) (by decide +kernel)⟩

/-- A block whose Merkle root is 0 cannot be told from a failure. -/
theorem CPartialMerkleTree.extractMatches_zero_root :
    (extractMatches ⟨1, true :: List.replicate 15 false, [5], false⟩).toOption.map
        (fun result => (result.1, result.2.vMatch)) = some (merkleRoot [0], [5]) ∧
      [(0 : UInt256)].Nodup ∧ ¬ [(5 : UInt256)].Sublist [0] ∧
      Merkle.CollisionFree hashPair fun left right => MerklePair [0] left right ∨
        (left, right) ∈ hashedPairs ⟨1, true :: List.replicate 15 false, [5], false⟩ := by
  refine ⟨by decide, by decide, by decide, ?_⟩
  intro left right left' right' hashed
  have none : hashedPairs ⟨1, true :: List.replicate 15 false, [5], false⟩ = [] := by decide
  rw [none] at hashed
  cases hashed with
  | inl pair => exact absurd pair (merklePair_none (by decide))
  | inr member => contradiction

end BitCrystal
