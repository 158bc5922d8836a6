import BitCrystal.ChainCoins

namespace BitCrystal

open Data

/-! # FindBlockByHeight -/

/-- The globals that FindBlockByHeight works on. -/
structure BlockFinder where
  chain : ChainState
  pindexGenesisBlock : Option UInt256
  pblockindexFBBHLast : Option UInt256

/-- A loop that follows a link while a test of the block holds, by turns. -/
def walkWhile (map : BlockMap) (test : CBlockIndex → Bool) (link : CBlockIndex → Option UInt256) :
    Nat → Option UInt256 → Except Failure UInt256
  | 0, _ => .error .endless
  | room + 1, pblockindex => do
      let hash ← expect pblockindex (.undefined "FindBlockByHeight")
      let index ← expect (map hash) (.undefined "FindBlockByHeight")
      if test index then walkWhile map test link room (link index) else return hash

/-- `while (pblockindex->nHeight > nHeight) pblockindex = pblockindex->pprev;` -/
def walkDown (map : BlockMap) (nHeight : Int) : Nat → Option UInt256 → Except Failure UInt256 :=
  walkWhile map (fun index => nHeight < index.nHeight) CBlockIndex.pprev

/-- `while (pblockindex->nHeight < nHeight) pblockindex = pblockindex->pnext;` -/
def walkUp (map : BlockMap) (nHeight : Int) : Nat → Option UInt256 → Except Failure UInt256 :=
  walkWhile map (fun index => index.nHeight < nHeight) CBlockIndex.pnext

namespace BlockFinder

/-- The block that the cached one replaces unless it is nearer. -/
def nearer (s : BlockFinder) (nHeight : Int) (pblockindex : Option UInt256) : Except Failure (Option UInt256) :=
  match s.pblockindexFBBHLast with
  | none => .ok pblockindex
  | some last => do
      let hash ← expect pblockindex (.undefined "FindBlockByHeight")
      let index ← expect (s.chain.mapBlockIndex hash) (.undefined "FindBlockByHeight")
      let lastIndex ← expect (s.chain.mapBlockIndex last) (.undefined "FindBlockByHeight")
      return some (if |nHeight - lastIndex.nHeight| < |nHeight - index.nHeight| then last else hash)

def findBlockByHeight (s : BlockFinder) (nHeight : Int) : Except Failure (BlockFinder × UInt256) := do
  let map := s.chain.mapBlockIndex
  let pblockindex := if nHeight < s.chain.nBestHeight.tdiv 2 then s.pindexGenesisBlock else s.chain.pindexBest
  let pblockindex ← s.nearer nHeight pblockindex
  let lower ← walkDown map nHeight ((pblockindex.map (heightRoom map)).getD 0 + 1) pblockindex
  let found ← walkUp map nHeight ((nHeight - map.height lower).toNat + 1) (some lower)
  return ({ s with pblockindexFBBHLast := some found }, found)

end BlockFinder

/-! ## The blocks of the active chain -/

namespace BlockMap

/-- The only block without a parent is the genesis block, at height 0. -/
def Rooted (map : BlockMap) : Prop :=
  ∀ hash index, map hash = some index → index.pprev = none → hash = hashGenesisBlock ∧ index.nHeight = 0

/-- The links lead up to the tip from every block of the active chain. -/
def Complete (map : BlockMap) (tip : Option UInt256) : Prop :=
  ∀ best hash child, tip = some best → map.parent child = some hash → Ancestor map.parent child best →
    (map hash).bind CBlockIndex.pnext ≠ none

variable {map other : BlockMap} {tip : Option UInt256} {best hash : UInt256} {index : CBlockIndex} {nHeight : Int}

theorem SameShape.rooted (same : SameShape map other) (rooted : map.Rooted) : other.Rooted := by
  intro hash index known root
  obtain ⟨before, found, equal⟩ := same.entry known
  obtain ⟨-, up, height, -⟩ := CBlockIndex.shape_fields equal
  rw [up] at root
  rw [height]
  exact rooted hash before found root

theorem Rooted.genesis_ancestor (rooted : map.Rooted) (tree : map.Tree) (depth : Nat)
    (known : map hash = some index) (height : index.nHeight ≤ depth) :
    Ancestor map.parent hashGenesisBlock hash := by
  induction depth generalizing hash index with
  | zero =>
      have nonneg := tree.nonneg hash index known
      cases up : index.pprev with
      | none =>
          rw [(rooted hash index known up).1]
          exact .refl _
      | some pprev =>
          obtain ⟨previous, found, one⟩ := tree.above hash index pprev known up
          have := tree.nonneg pprev previous found
          omega
  | succ depth ih =>
      cases up : index.pprev with
      | none =>
          rw [(rooted hash index known up).1]
          exact .refl _
      | some pprev =>
          obtain ⟨previous, found, one⟩ := tree.above hash index pprev known up
          have step : map.parent hash = some pprev := (parent_of known).trans up
          exact (ih found (by omega)).trans (.of_parent step)

theorem Linked.next_of_lower (linked : map.Linked tip) (complete : map.Complete tip) (top : tip = some best)
    (known : map hash = some index) (above : Ancestor map.parent hash best) (other : hash ≠ best) :
    ∃ child, index.pnext = some child ∧ map.parent child = some hash ∧ Ancestor map.parent child best := by
  have step : ∃ child, map.parent child = some hash ∧ Ancestor map.parent child best := by
    cases Relation.ReflTransGen.cases_tail above with
    | inl same => exact absurd same other
    | inr last =>
        obtain ⟨child, path, up⟩ := last
        exact ⟨child, up, path⟩
  obtain ⟨child, up, below⟩ := step
  have some_next := complete best hash child top up below
  rw [known] at some_next
  obtain ⟨next, link⟩ := Option.ne_none_iff_exists'.mp some_next
  obtain ⟨parent, tip', same, path⟩ := linked hash index next known link
  rw [top] at same
  cases same
  exact ⟨next, link, parent, path⟩

end BlockMap

open BlockMap

section

variable {map : BlockMap} {tip : Option UInt256} {best hash : UInt256} {index : CBlockIndex} {nHeight : Int}

theorem walkDown_spec (tree : map.Tree) (rooted : map.Rooted) (nonneg : 0 ≤ nHeight) (room : Nat)
    (known : map hash = some index) (enough : index.nHeight - nHeight < room) (some_room : 0 < room) :
    ∃ lower, walkDown map nHeight room (some hash) = .ok lower ∧ Ancestor map.parent lower hash ∧
      (∃ index, map lower = some index) ∧ map.height lower = min index.nHeight nHeight := by
  induction room generalizing hash index with
  | zero => omega
  | succ room ih =>
      by_cases higher : nHeight < index.nHeight
      · cases up : index.pprev with
        | none =>
            have := (rooted hash index known up).2
            omega
        | some pprev =>
            obtain ⟨previous, found, one⟩ := tree.above hash index pprev known up
            obtain ⟨lower, walked, path, there, height⟩ := ih found (by omega) (by omega)
            have step : map.parent hash = some pprev := (parent_of known).trans up
            apply Exists.intro lower
            apply And.intro
            · rw [walkDown, walkWhile, expect, ok_bind, known, expect, ok_bind, if_pos (by simpa using higher), up]
              exact walked
            · exact ⟨path.trans (.of_parent step), there, by omega⟩
      · apply Exists.intro hash
        apply And.intro
        · rw [walkDown, walkWhile, expect, ok_bind, known, expect, ok_bind, if_neg (by simpa using higher)]
          rfl
        · exact ⟨.refl _, ⟨index, known⟩, by rw [height_of known]; omega⟩

theorem walkUp_spec (tree : map.Tree) (linked : map.Linked tip) (complete : map.Complete tip)
    (top : tip = some best) (below : nHeight ≤ map.height best) (room : Nat) (known : map hash = some index)
    (above : Ancestor map.parent hash best) (low : index.nHeight ≤ nHeight)
    (enough : nHeight - index.nHeight < room) :
    ∃ found, walkUp map nHeight room (some hash) = .ok found ∧ Ancestor map.parent found best ∧
      map.height found = nHeight := by
  induction room generalizing hash index with
  | zero => omega
  | succ room ih =>
      by_cases lower : index.nHeight < nHeight
      · have apart : hash ≠ best := by
          intro same
          rw [← same, height_of known] at below
          omega
        obtain ⟨child, next, up, path⟩ := linked.next_of_lower complete top known above apart
        obtain ⟨lowerIndex, found, -⟩ := Option.bind_eq_some_iff.mp up
        have one := tree.graded child hash up
        rw [height_of found, height_of known] at one
        obtain ⟨last, walked, reached⟩ := ih found path (by omega) (by omega)
        apply Exists.intro last
        apply And.intro
        · rw [walkUp, walkWhile, expect, ok_bind, known, expect, ok_bind, if_pos (by simpa using lower), next]
          exact walked
        · exact reached
      · apply Exists.intro hash
        apply And.intro
        · rw [walkUp, walkWhile, expect, ok_bind, known, expect, ok_bind, if_neg (by simpa using lower)]
          rfl
        · exact ⟨above, by rw [height_of known]; omega⟩

end

namespace BlockFinder

/-- What the globals satisfy between the calls. -/
structure Navigable (s : BlockFinder) : Prop where
  linked : s.chain.Linked
  rooted : s.chain.mapBlockIndex.Rooted
  complete : s.chain.mapBlockIndex.Complete s.chain.pindexBest
  known : ∀ best, s.chain.pindexBest = some best → (s.chain.mapBlockIndex best).isSome
  height : ∀ best, s.chain.pindexBest = some best → s.chain.nBestHeight = s.chain.mapBlockIndex.height best
  unstarted : s.chain.pindexBest = none → s.chain.nBestHeight ≤ 0
  genesis : ∀ best, s.chain.pindexBest = some best → s.pindexGenesisBlock = some hashGenesisBlock
  cached : ∀ last, s.pblockindexFBBHLast = some last →
    ∃ best, s.chain.pindexBest = some best ∧ Ancestor s.chain.mapBlockIndex.parent last best

def AtHeight (s : BlockFinder) (nHeight : Int) (hash : UInt256) : Prop :=
  (∃ best, s.chain.pindexBest = some best ∧ Ancestor s.chain.mapBlockIndex.parent hash best) ∧
    s.chain.mapBlockIndex.height hash = nHeight

variable {s : BlockFinder} {nHeight : Int}

theorem Navigable.entry (navigable : s.Navigable) {best hash : UInt256} (top : s.chain.pindexBest = some best)
    (above : Ancestor s.chain.mapBlockIndex.parent hash best) :
    ∃ index, s.chain.mapBlockIndex hash = some index :=
  Option.isSome_iff_exists.mp (navigable.linked.tree.known_of_ancestor above (navigable.known best top))

theorem Navigable.start (navigable : s.Navigable) {best : UInt256} (top : s.chain.pindexBest = some best)
    (nHeight : Int) :
    ∃ first, (if nHeight < s.chain.nBestHeight.tdiv 2 then s.pindexGenesisBlock else s.chain.pindexBest) =
      some first ∧ Ancestor s.chain.mapBlockIndex.parent first best := by
  split
  · obtain ⟨index, known⟩ := navigable.entry top (.refl best)
    have root := navigable.rooted.genesis_ancestor navigable.linked.tree index.nHeight.toNat known (by omega)
    exact ⟨hashGenesisBlock, navigable.genesis best top, root⟩
  · exact ⟨best, top, .refl best⟩

theorem Navigable.nearer (navigable : s.Navigable) {best start : UInt256}
    (top : s.chain.pindexBest = some best) (above : Ancestor s.chain.mapBlockIndex.parent start best)
    (nHeight : Int) :
    ∃ hash, s.nearer nHeight (some start) = .ok (some hash) ∧
      Ancestor s.chain.mapBlockIndex.parent hash best := by
  obtain ⟨index, known⟩ := navigable.entry top above
  cases cached : s.pblockindexFBBHLast with
  | none => exact ⟨start, by rw [BlockFinder.nearer, cached], above⟩
  | some last =>
      obtain ⟨other, same, path⟩ := navigable.cached last cached
      rw [top] at same
      cases same
      obtain ⟨lastIndex, found⟩ := navigable.entry top path
      have chosen : s.nearer nHeight (some start) =
          .ok (some (if |nHeight - lastIndex.nHeight| < |nHeight - index.nHeight| then last else start)) := by
        simp only [BlockFinder.nearer, cached, expect, known, found, ok_bind]
        rfl
      refine ⟨_, chosen, ?_⟩
      split
      · exact path
      · exact above

theorem Navigable.findBlockByHeight (navigable : s.Navigable) (started : s.chain.pindexBest ≠ none)
    (nonneg : 0 ≤ nHeight) (within : nHeight ≤ s.chain.nBestHeight) :
    ∃ hash, s.findBlockByHeight nHeight = .ok ({ s with pblockindexFBBHLast := some hash }, hash) ∧
      s.AtHeight nHeight hash := by
  obtain ⟨best, top⟩ := Option.ne_none_iff_exists'.mp started
  have height := navigable.height best top
  have tree := navigable.linked.tree
  obtain ⟨first, chosen, firstAbove⟩ := navigable.start top nHeight
  obtain ⟨hash, near, above⟩ := navigable.nearer top firstAbove nHeight
  obtain ⟨index, known⟩ := navigable.entry top above
  have room : heightRoom s.chain.mapBlockIndex hash = index.nHeight.toNat + 1 := by
    rw [heightRoom, known]
    rfl
  obtain ⟨lower, down, lowerPath, ⟨lowerIndex, lowerKnown⟩, lowerHeight⟩ := walkDown_spec tree navigable.rooted
    nonneg (heightRoom s.chain.mapBlockIndex hash + 1) known (by omega) (Nat.succ_pos _)
  rw [height_of lowerKnown] at lowerHeight
  obtain ⟨found, up, foundPath, foundHeight⟩ := walkUp_spec tree navigable.linked.next navigable.complete top
    (height ▸ within) ((nHeight - lowerIndex.nHeight).toNat + 1) lowerKnown (lowerPath.trans above) (by omega)
    (by omega)
  apply Exists.intro found
  apply And.intro
  · simp only [BlockFinder.findBlockByHeight, chosen, near, ok_bind, Option.map_some, Option.getD_some, down,
      height_of lowerKnown, up]
    rfl
  · exact ⟨⟨best, top, foundPath⟩, foundHeight⟩

/-! ## Whatever the height, a block that is returned is on the active chain -/

theorem walkWhile_ends {map : BlockMap} {test : CBlockIndex → Bool} {link : CBlockIndex → Option UInt256}
    (keeps : UInt256 → Prop) (step : ∀ hash index next, keeps hash → map hash = some index →
      link index = some next → keeps next) {room : Nat} {start : Option UInt256} {last : UInt256}
    (before : ∀ hash, start = some hash → keeps hash) (ended : walkWhile map test link room start = .ok last) :
    keeps last ∧ ∃ index, map last = some index ∧ test index = false := by
  induction room generalizing start with
  | zero => cases ended
  | succ room ih =>
      simp only [walkWhile, bind_eq_ok, expect_eq_ok] at ended
      obtain ⟨hash, rfl, index, known, rest⟩ := ended
      by_cases more : test index = true
      · rw [if_pos more] at rest
        exact ih (fun next link => step hash index next (before hash rfl) known link) rest
      · rw [if_neg more] at rest
        cases rest
        exact ⟨before _ rfl, index, known, Bool.eq_false_iff.mpr more⟩

theorem Navigable.returned (navigable : s.Navigable) {next : BlockFinder} {hash : UInt256}
    (returned : s.findBlockByHeight nHeight = .ok (next, hash)) :
    next = { s with pblockindexFBBHLast := some hash } ∧
      ∃ best, s.chain.pindexBest = some best ∧ Ancestor s.chain.mapBlockIndex.parent hash best := by
  simp only [BlockFinder.findBlockByHeight, bind_eq_ok, pure_eq_ok, Prod.mk.injEq] at returned
  obtain ⟨pblockindex, near, lower, down, found, up, rfl, rfl⟩ := returned
  apply And.intro rfl
  cases top : s.chain.pindexBest with
  | none =>
      have unstarted := navigable.unstarted top
      have uncached : s.pblockindexFBBHLast = none := by
        cases cached : s.pblockindexFBBHLast with
        | none => rfl
        | some last =>
            obtain ⟨best, impossible, -⟩ := navigable.cached last cached
            cases top.symm.trans impossible
      simp only [BlockFinder.nearer, uncached] at near
      cases near
      obtain ⟨-, index, known, stopped⟩ := walkWhile_ends (fun _ => True)
        (fun _ _ _ _ _ _ => trivial) (fun _ _ => trivial) down
      have nonneg := navigable.linked.tree.nonneg lower index known
      have low : ¬nHeight < index.nHeight := of_decide_eq_false stopped
      have half : 0 ≤ (-s.chain.nBestHeight).tdiv 2 := Int.tdiv_nonneg (Int.neg_nonneg_of_nonpos unstarted) (by decide)
      rw [Int.neg_tdiv] at half
      rw [if_neg (by omega), top] at down
      cases down
  | some best =>
      obtain ⟨first, chosen, firstAbove⟩ := navigable.start top nHeight
      rw [chosen] at near
      obtain ⟨start, near', above⟩ := navigable.nearer top firstAbove nHeight
      cases near'.symm.trans near
      obtain ⟨lowerAbove, -⟩ := walkWhile_ends
        (fun hash => Ancestor s.chain.mapBlockIndex.parent hash best)
        (fun hash index pprev path known link =>
          (Ancestor.of_parent ((parent_of known).trans link)).trans path)
        (fun hash same => Option.some.inj same ▸ above) down
      obtain ⟨foundAbove, -⟩ := walkWhile_ends
        (fun hash => Ancestor s.chain.mapBlockIndex.parent hash best)
        (fun hash index pnext path known link => by
          obtain ⟨-, other, same, up⟩ := navigable.linked.next hash index pnext known link
          cases top.symm.trans same
          exact up)
        (fun hash same => Option.some.inj same ▸ lowerAbove) up
      exact ⟨best, rfl, foundAbove⟩

end BlockFinder

end BitCrystal
