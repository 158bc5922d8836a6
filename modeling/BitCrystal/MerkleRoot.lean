import BitCrystal.Overwrite
import BitCrystal.Data.Merkle

namespace BitCrystal

open Data

/-! # The Merkle root of a block -/

section

variable [Hashing]

/-- BuildMerkleTree for the transaction hashes of a block. -/
def merkleRoot (txids : List UInt256) : UInt256 :=
  (merkleLevels txids.length txids).getLast?.getD 0

theorem CBlock.buildMerkleTree_eq (block : CBlock) :
    block.buildMerkleTree = merkleRoot (block.vtx.map CTransaction.getHash) := by
  rw [buildMerkleTree, vMerkleTree, merkleRoot, List.length_map]

/-- The leaves of the tree; there are none beyond the list. -/
def merkleLeaf (txids : List UInt256) (pos : Nat) : UInt256 :=
  txids[pos]?.getD 0

abbrev merkleNode (txids : List UInt256) : Nat → Nat → UInt256 :=
  Merkle.node hashPair (merkleLeaf txids) txids.length

/-- Two nodes that BuildMerkleTree hashes together. -/
abbrev MerklePair (txids : List UInt256) : UInt256 → UInt256 → Prop :=
  Merkle.Hashed hashPair (merkleLeaf txids) txids.length

theorem merkleLevel_eq (nodes : List UInt256) : merkleLevel nodes = Merkle.pairUp hashPair nodes := by
  induction nodes using merkleLevel.induct with
  | case1 => rfl
  | case2 last => rfl
  | case3 left right rest ih => rw [merkleLevel, Merkle.pairUp, ih]

theorem merkleLeaves_eq (txids : List UInt256) :
    Merkle.level hashPair (merkleLeaf txids) txids.length 0 = txids := by
  apply List.ext_getElem?
  intro pos
  rw [Merkle.getElem?_level, Merkle.width_zero]
  split
  · rename_i within
    simp [Merkle.node, merkleLeaf, within]
  · rename_i beyond
    rw [List.getElem?_eq_none (by omega)]

private theorem merkleLevels_getLast (txids : List UInt256) {top : Nat} (isTop : Merkle.Top txids.length top)
    (nonempty : 0 < txids.length) (room : Nat) {height : Nat} (below : height ≤ top)
    (enough : Merkle.width txids.length height ≤ room + 1) :
    (merkleLevels room (Merkle.level hashPair (merkleLeaf txids) txids.length height)).getLast? =
      some (merkleNode txids top 0) := by
  have finished : ∀ {height : Nat}, height ≤ top → Merkle.width txids.length height ≤ 1 →
      (Merkle.level hashPair (merkleLeaf txids) txids.length height).getLast? = some (merkleNode txids top 0) := by
    intro height below single
    rw [isTop.eq_of_single below single, Merkle.level, isTop.width_eq nonempty]
    rfl
  induction room generalizing height with
  | zero => exact finished below enough
  | succ room ih =>
      unfold merkleLevels
      split
      · rename_i single
        exact finished below (by simpa [Merkle.level] using single)
      · rename_i more
        have wide : 1 < Merkle.width txids.length height := by simpa [Merkle.level] using more
        have higher := isTop.lt_of_wide below wide
        have next := Merkle.width_succ txids.length height
        have above : (merkleLevels room (Merkle.level hashPair (merkleLeaf txids) txids.length
            (height + 1))).getLast? = _ := ih higher (by omega)
        rw [merkleLevel_eq, Merkle.pairUp_level, List.getLast?_append, above]
        rfl

theorem merkleRoot_eq {txids : List UInt256} (nonempty : txids ≠ []) {top : Nat}
    (isTop : Merkle.Top txids.length top) : merkleRoot txids = merkleNode txids top 0 := by
  have last := merkleLevels_getLast txids isTop (List.length_pos_of_ne_nil nonempty) txids.length (Nat.zero_le top)
    (by rw [Merkle.width_zero]; omega)
  rw [merkleLeaves_eq] at last
  rw [merkleRoot, last, Option.getD_some]

/-- On the nodes of two trees the hash of a pair is injective, and never the hash
of a transaction. -/
structure MerkleSound (txids others : List UInt256) : Prop where
  free : Merkle.CollisionFree hashPair fun left right => MerklePair txids left right ∨ MerklePair others left right
  fresh : ∀ left right, MerklePair txids left right ∨ MerklePair others left right →
    hashPair left right ∉ txids ∧ hashPair left right ∉ others

end

theorem merkleLeaf_eq {txids : List UInt256} {pos : Nat} (within : pos < txids.length) :
    merkleLeaf txids pos = txids[pos] := by
  simp [merkleLeaf, within]

theorem merkleLeaf_mem {txids : List UInt256} {pos : Nat} (within : pos < txids.length) :
    merkleLeaf txids pos ∈ txids := by
  rw [merkleLeaf_eq within]
  exact List.getElem_mem within

theorem merkleLeaf_injective {txids : List UInt256} (nodup : txids.Nodup) :
    ∀ one < txids.length, ∀ other < txids.length, merkleLeaf txids one = merkleLeaf txids other → one = other := by
  intro one within other within' same
  rw [merkleLeaf_eq within, merkleLeaf_eq within'] at same
  exact (List.Nodup.getElem_inj_iff nodup).mp same

section

variable [Hashing]

theorem MerkleSound.txids_eq {txids others : List UInt256} (sound : MerkleSound txids others)
    (nonempty : txids ≠ []) (nonempty' : others ≠ []) (unique : txids.Nodup) (unique' : others.Nodup)
    (same : merkleRoot txids = merkleRoot others) : txids = others := by
  obtain ⟨top, isTop⟩ := Merkle.exists_top txids.length
  obtain ⟨top', isTop'⟩ := Merkle.exists_top others.length
  rw [merkleRoot_eq nonempty isTop, merkleRoot_eq nonempty' isTop'] at same
  obtain ⟨length, leaves⟩ := Merkle.leaves_eq_of_root sound.free
    ⟨fun _ _ hashed => .inl hashed, merkleLeaf_injective unique⟩
    ⟨fun _ _ hashed => .inr hashed, merkleLeaf_injective unique'⟩
    (fun left right hashed pos within leaf => (sound.fresh left right hashed).1 (leaf ▸ merkleLeaf_mem within))
    (fun left right hashed pos within leaf => (sound.fresh left right hashed).2 (leaf ▸ merkleLeaf_mem within))
    (List.length_pos_of_ne_nil nonempty) (List.length_pos_of_ne_nil nonempty') isTop isTop' same
  apply List.ext_getElem length
  intro pos within within'
  have leaf := leaves pos within
  rwa [merkleLeaf_eq within, merkleLeaf_eq within'] at leaf

theorem MerkleSound.head_eq {txid other : UInt256} {txids others : List UInt256}
    (sound : MerkleSound (txid :: txids) (other :: others))
    (same : merkleRoot (txid :: txids) = merkleRoot (other :: others)) : txid = other := by
  obtain ⟨top, isTop⟩ := Merkle.exists_top (txid :: txids).length
  obtain ⟨top', isTop'⟩ := Merkle.exists_top (other :: others).length
  rw [merkleRoot_eq (List.cons_ne_nil _ _) isTop, merkleRoot_eq (List.cons_ne_nil _ _) isTop'] at same
  have first := Merkle.first_leaf_eq_of_root sound.free (fun _ _ hashed => .inl hashed) (fun _ _ hashed => .inr hashed)
    (fun left right hashed pos within leaf => (sound.fresh left right hashed).1 (leaf ▸ merkleLeaf_mem within))
    (fun left right hashed pos within leaf => (sound.fresh left right hashed).2 (leaf ▸ merkleLeaf_mem within))
    (Nat.succ_pos _) (Nat.succ_pos _) isTop isTop' same
  exact first

/-- Two lists of different transaction hashes have the same Merkle root only if
they are the same list. -/
theorem merkleRoot_eq_iff (txids others : List UInt256) (nonempty : txids ≠ []) (nonempty' : others ≠ [])
    (unique : txids.Nodup) (unique' : others.Nodup) (sound : MerkleSound txids others) :
    merkleRoot txids = merkleRoot others ↔ txids = others := by
  constructor
  · exact sound.txids_eq nonempty nonempty' unique unique'
  · intro same
    rw [same]

theorem CBlock.hashMerkleRoot_of_checkBlock {settings : Settings} {block : CBlock} {done : Unit}
    (passes : block.checkBlock settings true true = .ok done) : block.hashMerkleRoot = block.buildMerkleTree := by
  simp only [checkBlock, bind_eq_ok, require_eq_ok, exists_const] at passes
  obtain ⟨_, _, _, _, _, _, _, _, _, root⟩ := passes
  exact root trivial

/-- The header of a block that passes CheckBlock cannot be presented with another
list of transactions that passes it as well. -/
theorem CBlock.checkBlock_commits {settings : Settings} {block mutated : CBlock} {done : Unit}
    (passes : block.checkBlock settings true true = .ok done)
    (passes' : mutated.checkBlock settings true true = .ok done)
    (header : mutated.toCBlockHeader = block.toCBlockHeader)
    (sound : MerkleSound (block.vtx.map CTransaction.getHash) (mutated.vtx.map CTransaction.getHash)) :
    block.vtx.map CTransaction.getHash = mutated.vtx.map CTransaction.getHash := by
  have checked := Checked.of_checkBlock passes
  have checked' := Checked.of_checkBlock passes'
  apply sound.txids_eq (by simpa using checked.vtx_ne_nil) (by simpa using checked'.vtx_ne_nil)
    checked.hashes_nodup checked'.hashes_nodup
  rw [← buildMerkleTree_eq, ← buildMerkleTree_eq, ← hashMerkleRoot_of_checkBlock passes,
    ← hashMerkleRoot_of_checkBlock passes', header]

end

namespace Sample

theorem merklePair_two {one other left right : UInt256} (hashed : MerklePair [one, other] left right) :
    left = one ∧ right = other := by
  obtain ⟨height, pos, wide, within, rfl, rfl⟩ := hashed
  have ground : height = 0 := by
    rw [Merkle.lt_width_iff] at wide
    have small : 2 ^ height < 2 ^ 1 := by simpa using wide
    have := (Nat.pow_lt_pow_iff_right (by decide)).mp small
    omega
  subst ground
  have first : pos = 0 := by
    rw [Merkle.width_succ, Merkle.width_zero] at within
    simp at within
    omega
  subst first
  exact ⟨rfl, by simp [Merkle.rightChild, Merkle.node, merkleLeaf]⟩

theorem merkleSound_two : MerkleSound [0x77, 0x78] [0x78, 0x77] where
  free left right left' right' hashed hashed' same := by
    have apart : hashPair 0x77 0x78 ≠ hashPair 0x78 0x77 := by decide +kernel
    rcases hashed.imp merklePair_two merklePair_two with ⟨rfl, rfl⟩ | ⟨rfl, rfl⟩ <;>
      rcases hashed'.imp merklePair_two merklePair_two with ⟨rfl, rfl⟩ | ⟨rfl, rfl⟩
    · exact ⟨rfl, rfl⟩
    · exact absurd same apart
    · exact absurd same.symm apart
    · exact ⟨rfl, rfl⟩
  fresh left right hashed := by
    rcases hashed.imp merklePair_two merklePair_two with ⟨rfl, rfl⟩ | ⟨rfl, rfl⟩
    · decide +kernel
    · decide +kernel

theorem merklePair_none {txids : List UInt256} (short : txids.length ≤ 1) {left right : UInt256} :
    ¬ MerklePair txids left right := by
  intro hashed
  obtain ⟨height, pos, wide, _⟩ := hashed
  rw [Merkle.lt_width_iff] at wide
  have : 0 < 2 ^ height := Nat.pow_pos (by decide)
  omega

end Sample

open Sample

theorem merkleRoot_eq_iff_sample :
    merkleRoot [0x77, 0x78] = merkleRoot [0x78, 0x77] ↔ ([0x77, 0x78] : List UInt256) = [0x78, 0x77] :=
  merkleRoot_eq_iff [0x77, 0x78] [0x78, 0x77] (by decide) (by decide) (by decide) (by decide) merkleSound_two

/-- The root of no transactions is 0, and so is that of one transaction with hash 0. -/
theorem merkleRoot_nil : ([] : List UInt256).Nodup ∧ [(0 : UInt256)].Nodup ∧ MerkleSound [] [0] ∧
    merkleRoot [] = merkleRoot [0] ∧ ([] : List UInt256) ≠ [0] := by
  refine ⟨List.nodup_nil, by decide, ⟨?_, ?_⟩, rfl, by decide⟩
  · intro left right left' right' hashed
    cases hashed with
    | inl none => exact absurd none (merklePair_none (by decide))
    | inr single => exact absurd single (merklePair_none (by decide))
  · intro left right hashed
    cases hashed with
    | inl none => exact absurd none (merklePair_none (by decide))
    | inr single => exact absurd single (merklePair_none (by decide))

end BitCrystal
