import BitCrystal.Atomicity
import BitCrystal.Data.Tables

namespace BitCrystal

open Data

/-! # Block locators -/

structure CBlockLocator where
  vHave : List UInt256
deriving DecidableEq

/-- `mapBlockIndex.find(hash)` finds an entry, and IsInMainChain of it. -/
def BlockMap.inMainChain (map : BlockMap) (pindexBest : Option UInt256) (hash : UInt256) : Bool :=
  (map hash).any fun index => index.pnext.isSome || pindexBest = some hash

namespace CBlockLocator

section

variable (overflow : Int → Int) (map : BlockMap)

/-- `for (int i = 0; pindex && i < nStep; i++) pindex = pindex->pprev;` -/
def stepBack : Nat → Option UInt256 → Except Failure (Option UInt256)
  | 0, pindex => .ok pindex
  | _ + 1, none => .ok none
  | more + 1, some hash => do
      let index ← expect (map hash) (.undefined "CBlockLocator::Set")
      stepBack more index.pprev

/-- The loop of Set, by turns. -/
def setLoop : Nat → Option UInt256 → Int → List UInt256 → Except Failure (List UInt256)
  | 0, _, _, _ => .error .endless
  | _ + 1, none, _, vHave => .ok vHave
  | room + 1, some hash, nStep, vHave => do
      let index ← expect (map hash) (.undefined "CBlockLocator::Set")
      let blockHash ← expect index.phashBlock (.undefined "CBlockLocator::Set")
      let vHave := vHave ++ [blockHash]
      -- Exponentially larger steps back
      let pindex ← stepBack map nStep.toNat (some hash)
      let nStep := if 10 < vHave.length then intValue overflow (nStep * 2) else nStep
      setLoop room pindex nStep vHave

def set (pindex : Option UInt256) : Except Failure CBlockLocator := do
  let vHave ← setLoop overflow map ((pindex.map (heightRoom map)).getD 0 + 1) pindex 1 []
  return ⟨vHave ++ [hashGenesisBlock]⟩

variable (pindexBest : Option UInt256)

/-- Retrace how far back it was in the sender's branch. -/
def distanceLoop (nDistance nStep : Int) : List UInt256 → Int
  | [] => nDistance
  | hash :: rest =>
      if map.inMainChain pindexBest hash then nDistance
      else
        let nDistance := intValue overflow (nDistance + nStep)
        let nStep := if 10 < nDistance then intValue overflow (nStep * 2) else nStep
        distanceLoop nDistance nStep rest

def getDistanceBack (locator : CBlockLocator) : Int :=
  distanceLoop overflow map pindexBest 0 1 locator.vHave

/-- Find the first block the caller has in the main chain. -/
def getBlockIndex (pindexGenesisBlock : Option UInt256) (locator : CBlockLocator) : Option UInt256 :=
  match locator.vHave.find? (map.inMainChain pindexBest) with
  | some hash => some hash
  | none => pindexGenesisBlock

end

/-! ## The schedule of the steps -/

def stride (k : Nat) : Nat := 2 ^ (k - 10)

/-- How far below the first entry the entry at a position is. -/
def reach : Nat → Nat
  | 0 => 0
  | k + 1 => reach k + stride k

theorem stride_pos (k : Nat) : 0 < stride k := Nat.two_pow_pos _

theorem stride_succ (k : Nat) : stride (k + 1) = if 10 < k + 1 then stride k * 2 else stride k := by
  unfold stride
  split
  · rw [show k + 1 - 10 = k - 10 + 1 by omega, Nat.pow_succ]
  · rw [show k + 1 - 10 = 0 by omega, show k - 10 = 0 by omega]

theorem le_reach (k : Nat) : k ≤ reach k := by
  induction k with
  | zero => exact Nat.le_refl 0
  | succ k ih =>
      have := stride_pos k
      rw [reach]
      omega

theorem reach_of_le {k : Nat} (few : k ≤ 11) : reach k = k := by
  induction k with
  | zero => rfl
  | succ k ih =>
      rw [reach, ih (by omega), stride, show k - 10 = 0 by omega, Nat.pow_zero]

theorem ten_lt_reach (k : Nat) : 10 < reach k ↔ 10 < k := by
  by_cases few : k ≤ 11
  · rw [reach_of_le few]
  · have := le_reach k
    omega

theorem stride_le_reach (k : Nat) : stride (k + 1) ≤ reach (k + 1) := by
  induction k with
  | zero => decide
  | succ k ih =>
      have twice : stride (k + 1 + 1) ≤ stride (k + 1) * 2 := by
        rw [stride_succ (k + 1)]
        split <;> omega
      rw [reach]
      omega

theorem reach_mono {i j : Nat} (order : i ≤ j) : reach i ≤ reach j := by
  induction order with
  | refl => exact Nat.le_refl _
  | step _ ih => exact Nat.le_trans ih (Nat.le_add_right _ _)

theorem reach_lt {i j : Nat} (before : i < j) : reach i < reach j := by
  apply Nat.lt_of_lt_of_le _ (reach_mono before)
  have := stride_pos i
  rw [reach]
  omega

theorem doubled {overflow : Int → Int} {k : Nat} (fits : reach (k + 1) < 2 ^ 31) :
    (if 10 < k + 1 then intValue overflow (stride k * 2) else (stride k : Int)) = stride (k + 1) := by
  have bound := stride_le_reach k
  have next := stride_succ k
  by_cases many : 10 < k + 1
  · rw [if_pos many] at next ⊢
    rw [intValue_of_range ⟨by omega, by omega⟩]
    omega
  · rw [if_neg many] at next ⊢
    omega

/-! ## What Set collects -/

variable {overflow : Int → Int} {map : BlockMap} {start : UInt256}

/-- The entry at each position is the block that far below the first. -/
def Placed (map : BlockMap) (start : UInt256) (entries : List UInt256) : Prop :=
  ∀ k hash, entries[k]? = some hash →
    Ancestor map.parent hash start ∧ map.height hash = map.height start - reach k

theorem stepBack_spec (tree : map.Tree) (more : Nat) {hash : UInt256} {index : CBlockIndex}
    (known : map hash = some index) :
    ∃ pindex, stepBack map more (some hash) = .ok pindex ∧ ∀ below, pindex = some below →
      (∃ lower, map below = some lower) ∧ Ancestor map.parent below hash ∧
        map.height below = map.height hash - more := by
  induction more generalizing hash index with
  | zero =>
      apply Exists.intro (some hash)
      apply And.intro rfl
      intro below same
      cases same
      exact ⟨⟨index, known⟩, .refl hash, by simp⟩
  | succ more ih =>
      have step : stepBack map (more + 1) (some hash) = stepBack map more index.pprev := by
        rw [stepBack, known]
        rfl
      rw [step]
      cases up : index.pprev with
      | none =>
          apply Exists.intro none
          apply And.intro
          · cases more <;> rfl
          · intro below same
            cases same
      | some pprev =>
          obtain ⟨previous, found, one⟩ := tree.above hash index pprev known up
          obtain ⟨pindex, walked, spec⟩ := ih found
          apply Exists.intro pindex
          apply And.intro walked
          intro below same
          obtain ⟨lower, above, height⟩ := spec below same
          have parent : map.parent hash = some pprev := (BlockMap.parent_of known).trans up
          apply And.intro lower
          apply And.intro (above.trans (.of_parent parent))
          have graded := tree.graded hash pprev parent
          push_cast
          omega

theorem Placed.concat {entries : List UInt256} {hash : UInt256} (placed : Placed map start entries)
    (above : Ancestor map.parent hash start)
    (height : map.height hash = map.height start - reach entries.length) :
    Placed map start (entries ++ [hash]) := by
  intro k other found
  cases getElem?_concat_eq_some.mp found with
  | inl before => exact placed k other before
  | inr last =>
      obtain ⟨rfl, rfl⟩ := last
      exact ⟨above, height⟩

/-- The variables of Set before it adds an entry at position `k`, with the turns that are left. -/
structure Turn (map : BlockMap) (start : UInt256) (k room : Nat) (nStep : Int) (hash : UInt256) : Prop where
  step : nStep = stride k
  known : ∃ index, map hash = some index
  above : Ancestor map.parent hash start
  height : map.height hash = map.height start - reach k
  room : map.height hash + 1 < room

theorem setLoop_turn (tree : map.Tree) {room : Nat} {hash : UInt256} {index : CBlockIndex} {next : Option UInt256}
    {nStep : Int} {vHave : List UInt256} (known : map hash = some index)
    (walked : stepBack map nStep.toNat (some hash) = .ok next) :
    setLoop overflow map (room + 1) (some hash) nStep vHave = setLoop overflow map room next
      (if 10 < (vHave ++ [hash]).length then intValue overflow (nStep * 2) else nStep) (vHave ++ [hash]) := by
  have own := tree.owned hash index known
  simp only [setLoop, known, own, walked, expect, ok_bind]

theorem Turn.next (overflow : Int → Int) (tree : map.Tree) (fits : map.height start < 2 ^ 31) {k room : Nat} {nStep : Int}
    {hash : UInt256} (turn : Turn map start k (room + 1) nStep hash) :
    ∃ next, stepBack map nStep.toNat (some hash) = .ok next ∧ ∀ below, next = some below →
      Turn map start (k + 1) room (if 10 < k + 1 then intValue overflow (nStep * 2) else nStep) below := by
  obtain ⟨index, known⟩ := turn.known
  obtain ⟨next, walked, spec⟩ := stepBack_spec tree nStep.toNat known
  apply Exists.intro next
  apply And.intro walked
  intro below same
  obtain ⟨⟨lower, found⟩, under, one⟩ := spec below same
  have stands := tree.nonneg below lower found
  rw [← BlockMap.height_of found] at stands
  have moved := stride_pos k
  rw [turn.step, Int.toNat_natCast] at one
  have place : map.height below = map.height start - reach (k + 1) := by
    rw [one, turn.height, reach]
    omega
  have inside : reach (k + 1) < 2 ^ 31 := by omega
  apply Turn.mk
  · rw [turn.step, doubled inside]
  · exact ⟨lower, found⟩
  · exact under.trans turn.above
  · exact place
  · have := turn.room
    omega

theorem setLoop_spec (overflow : Int → Int) (tree : map.Tree) (fits : map.height start < 2 ^ 31) {room : Nat} {pindex : Option UInt256}
    {nStep : Int} {vHave : List UInt256} (placed : Placed map start vHave)
    (turn : ∀ hash, pindex = some hash → Turn map start vHave.length room nStep hash) (more : 0 < room) :
    ∃ entries, setLoop overflow map room pindex nStep vHave = .ok entries ∧ Placed map start entries ∧
      vHave.length + pindex.toList.length ≤ entries.length := by
  induction room generalizing pindex nStep vHave with
  | zero => omega
  | succ room ih =>
      cases pindex with
      | none => exact ⟨vHave, rfl, placed, by simp⟩
      | some hash =>
          have now := turn hash rfl
          obtain ⟨index, known⟩ := now.known
          have nonneg := tree.nonneg hash index known
          rw [← BlockMap.height_of known] at nonneg
          obtain ⟨next, walked, later⟩ := now.next overflow tree fits
          have length : (vHave ++ [hash]).length = vHave.length + 1 := by simp
          rw [setLoop_turn tree known walked]
          have within : 0 < room := by
            have := now.room
            omega
          rw [← length] at later
          obtain ⟨entries, result, spread, grown⟩ := ih (placed.concat now.above now.height) later within
          apply Exists.intro entries
          apply And.intro result
          apply And.intro spread
          simp only [Option.toList_some, List.length_singleton]
          omega

theorem height_nonneg (tree : map.Tree) (hash : UInt256) : 0 ≤ map.height hash := by
  cases known : map hash with
  | none => simp [BlockMap.height, known]
  | some index =>
      rw [BlockMap.height_of known]
      exact tree.nonneg hash index known

/-- The entries are blocks of the chain below a block, from itself down. -/
structure Describes (map : BlockMap) (start : UInt256) (entries : List UInt256) : Prop where
  first : entries[0]? = some start
  onChain : ∀ hash ∈ entries, Ancestor map.parent hash start
  decreasing : entries.Pairwise fun upper lower => map.height lower < map.height upper

theorem Placed.describes (tree : map.Tree) {entries : List UInt256} (placed : Placed map start entries)
    (nonempty : 0 < entries.length) : Describes map start entries := by
  apply Describes.mk
  · have found : entries[0]? = some entries[0] := List.getElem?_eq_getElem nonempty
    obtain ⟨above, height⟩ := placed 0 _ found
    have same : entries[0] = start := above.eq_of_height_le tree.graded (by simp [height, reach])
    rw [found, same]
  · intro hash member
    obtain ⟨k, found⟩ := List.mem_iff_getElem?.mp member
    exact (placed k hash found).1
  · rw [List.pairwise_iff_getElem]
    intro i j left right before
    have upper := (placed i _ (List.getElem?_eq_getElem left)).2
    have lower := (placed j _ (List.getElem?_eq_getElem right)).2
    have := reach_lt before
    omega

/-! ## What the receiver finds -/

variable {receiver : BlockMap} {pindexBest : Option UInt256} {entry : UInt256}

/-- The entry at a position is the first that is on the main chain. -/
structure FirstInMain (receiver : BlockMap) (pindexBest : Option UInt256) (entries : List UInt256) (k : Nat)
    (entry : UInt256) : Prop where
  at_position : entries[k]? = some entry
  found : receiver.inMainChain pindexBest entry = true
  earlier : ∀ j hash, j < k → entries[j]? = some hash → receiver.inMainChain pindexBest hash = false

theorem FirstInMain.tail {hash : UInt256} {rest : List UInt256} {k : Nat}
    (first : FirstInMain receiver pindexBest (hash :: rest) (k + 1) entry) :
    receiver.inMainChain pindexBest hash = false ∧ FirstInMain receiver pindexBest rest k entry := by
  apply And.intro (first.earlier 0 hash (Nat.succ_pos k) rfl)
  refine ⟨first.at_position, first.found, ?_⟩
  intro j other before place
  exact first.earlier (j + 1) other (Nat.succ_lt_succ before) place

theorem FirstInMain.head {hash : UInt256} {rest : List UInt256}
    (first : FirstInMain receiver pindexBest (hash :: rest) 0 entry) :
    hash = entry ∧ receiver.inMainChain pindexBest hash = true := by
  have same : hash = entry := Option.some.inj first.at_position
  exact ⟨same, same ▸ first.found⟩

theorem find_firstInMain {entries : List UInt256} {k : Nat}
    (first : FirstInMain receiver pindexBest entries k entry) (more : List UInt256) :
    (entries ++ more).find? (receiver.inMainChain pindexBest) = some entry := by
  induction entries generalizing k with
  | nil => cases first.at_position
  | cons hash rest ih =>
      cases k with
      | zero =>
          obtain ⟨rfl, found⟩ := first.head
          rw [List.cons_append, List.find?_cons_of_pos found]
      | succ k =>
          obtain ⟨other, first'⟩ := first.tail
          rw [List.cons_append, List.find?_cons_of_neg (by simp [other])]
          exact ih first'

theorem distanceLoop_spec (overflow : Int → Int) {entries : List UInt256} {j k : Nat}
    (first : FirstInMain receiver pindexBest entries k entry) (fits : reach (j + k) < 2 ^ 31)
    (more : List UInt256) :
    distanceLoop overflow receiver pindexBest (reach j) (stride j) (entries ++ more) = reach (j + k) := by
  induction entries generalizing j k with
  | nil => cases first.at_position
  | cons hash rest ih =>
      cases k with
      | zero =>
          rw [List.cons_append, distanceLoop, if_pos first.head.2, Nat.add_zero]
      | succ k =>
          obtain ⟨other, first'⟩ := first.tail
          have shift : j + (k + 1) = j + 1 + k := by omega
          rw [shift] at fits ⊢
          have within : reach (j + 1) < 2 ^ 31 := Nat.lt_of_le_of_lt (reach_mono (Nat.le_add_right _ _)) fits
          have sum : intValue overflow (reach j + stride j) = reach (j + 1) := by
            rw [reach] at within ⊢
            rw [intValue_of_range ⟨by omega, by omega⟩, Nat.cast_add]
          have switch : (10 : Int) < reach (j + 1) ↔ 10 < j + 1 := by
            rw [← ten_lt_reach]
            omega
          rw [List.cons_append, distanceLoop, if_neg (by simp [other])]
          simp only [sum, switch, doubled within]
          exact ih first' fits

/-- Set describes the chain below a block, and every receiver that finds an entry of it on its main chain
retraces how far below the block the entry is. -/
theorem set_spec (overflow : Int → Int) (tree : map.Tree) {index : CBlockIndex} (known : map start = some index)
    (fits : index.nHeight < 2 ^ 31) :
    ∃ entries, set overflow map (some start) = .ok ⟨entries ++ [hashGenesisBlock]⟩ ∧ Describes map start entries ∧
      ∀ receiver pindexBest pindexGenesisBlock k entry, FirstInMain receiver pindexBest entries k entry →
        getBlockIndex receiver pindexBest pindexGenesisBlock ⟨entries ++ [hashGenesisBlock]⟩ = some entry ∧
        getDistanceBack overflow receiver pindexBest ⟨entries ++ [hashGenesisBlock]⟩ =
          map.height start - map.height entry := by
  have nonneg := tree.nonneg start index known
  have height := BlockMap.height_of known
  have starts : ∀ hash, some start = some hash → Turn map start 0 (index.nHeight.toNat + 2) 1 hash := by
    intro hash same
    cases same
    exact ⟨rfl, ⟨index, known⟩, .refl _, by simp [reach], by omega⟩
  have empty : Placed map start [] := by
    intro k hash found
    cases found
  obtain ⟨entries, result, placed, length⟩ := setLoop_spec overflow tree (height ▸ fits) empty starts
    (Nat.succ_pos _)
  have nonempty : 0 < entries.length := length
  apply Exists.intro entries
  apply And.intro
  · simp only [set, Option.map_some, Option.getD_some, heightRoom, known, result, ok_bind]
    rfl
  apply And.intro (placed.describes tree nonempty)
  intro receiver pindexBest pindexGenesisBlock k entry first
  obtain ⟨above, place⟩ := placed k entry first.at_position
  apply And.intro
  · rw [getBlockIndex, find_firstInMain first]
  · have depth : reach k < 2 ^ 31 := by
      have := height_nonneg tree entry
      omega
    have distance := distanceLoop_spec overflow (j := 0) first (by rwa [Nat.zero_add]) [hashGenesisBlock]
    rw [Nat.zero_add] at distance
    rw [place, Int.sub_sub_self]
    exact distance

open Sample in
theorem set_spec_sample : ∃ entries,
    set id twoBlocks.mapBlockIndex (some 6) = .ok ⟨entries ++ [hashGenesisBlock]⟩ ∧
      getBlockIndex twoBlocks.mapBlockIndex (some 5) none ⟨entries ++ [hashGenesisBlock]⟩ = some 5 ∧
      getDistanceBack id twoBlocks.mapBlockIndex (some 5) ⟨entries ++ [hashGenesisBlock]⟩ = 1 := by
  have known : twoBlocks.mapBlockIndex 6 = some (stored 6 (some 5)) := rfl
  obtain ⟨entries, result, -, spec⟩ := set_spec id twoBlocks_consistent.tree known (by decide)
  have computed : set id twoBlocks.mapBlockIndex (some 6) = .ok ⟨[6, 5] ++ [hashGenesisBlock]⟩ := by decide +kernel
  have same : entries = [6, 5] := by
    have both := Except.ok.inj (result.symm.trans computed)
    exact List.append_cancel_right (CBlockLocator.mk.inj both)
  have first : FirstInMain twoBlocks.mapBlockIndex (some 5) entries 1 5 := by
    rw [same]
    refine ⟨rfl, by decide, ?_⟩
    intro j hash before place
    rw [Nat.lt_one_iff.mp before] at place
    cases place
    decide
  exact ⟨entries, result, spec _ _ none 1 5 first⟩

end CBlockLocator

end BitCrystal
