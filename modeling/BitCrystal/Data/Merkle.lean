import Mathlib.Data.Nat.Bitwise
import Mathlib.Tactic.Common
import Mathlib.Tactic.Ring

namespace BitCrystal.Data.Merkle

/-! Binary hash trees over any number of leaves.  A node without a right child is
paired with itself.  Nodes are named by their height and their position in it. -/

/-- The number of nodes at a height. -/
def width (n height : Nat) : Nat :=
  (n + 2 ^ height - 1) / 2 ^ height

@[simp] theorem width_zero (n : Nat) : width n 0 = n := by
  simp [width]

theorem width_succ (n height : Nat) : width n (height + 1) = (width n height + 1) / 2 := by
  have positive : 0 < 2 ^ height := Nat.pow_pos (by decide)
  unfold width
  rw [← Nat.add_div_right _ positive, Nat.div_div_eq_div_mul, ← Nat.pow_succ]
  congr 1
  rw [Nat.pow_succ]
  omega

theorem lt_width_iff {n height pos : Nat} : pos < width n height ↔ pos * 2 ^ height < n := by
  have positive : 0 < 2 ^ height := Nat.pow_pos (by decide)
  unfold width
  rw [← Nat.succ_le_iff, Nat.le_div_iff_mul_le positive, Nat.succ_mul]
  omega

theorem width_pos {n : Nat} (nonempty : 0 < n) (height : Nat) : 0 < width n height := by
  rw [lt_width_iff]
  omega

theorem left_lt {n height pos : Nat} (within : pos < width n (height + 1)) : pos * 2 < width n height := by
  rw [width_succ] at within
  omega

/-- The height of the root. -/
structure Top (n height : Nat) : Prop where
  single : width n height ≤ 1
  least : ∀ lower < height, 1 < width n lower

theorem Top.unique {n one other : Nat} (top : Top n one) (also : Top n other) : one = other := by
  rcases Nat.lt_trichotomy one other with less | equal | more
  · have := also.least one less
    have := top.single
    omega
  · exact equal
  · have := top.least other more
    have := also.single
    omega

theorem Top.eq_of_single {n height top : Nat} (isTop : Top n top) (below : height ≤ top)
    (single : width n height ≤ 1) : height = top := by
  rcases Nat.lt_or_ge height top with lower | same
  · have := isTop.least height lower
    omega
  · omega

theorem Top.lt_of_wide {n height top : Nat} (isTop : Top n top) (below : height ≤ top) (wide : 1 < width n height) :
    height < top := by
  rcases Nat.lt_or_ge height top with lower | same
  · exact lower
  · have equal : height = top := by omega
    have := isTop.single
    rw [equal] at wide
    omega

theorem Top.width_eq {n height : Nat} (top : Top n height) (nonempty : 0 < n) : width n height = 1 := by
  have := width_pos nonempty height
  have := top.single
  omega

theorem exists_top (n : Nat) : ∃ height, Top n height := by
  have single : width n n ≤ 1 := by
    by_contra more
    have wide : 1 < width n n := by omega
    rw [lt_width_iff] at wide
    have : n < 2 ^ n := Nat.lt_two_pow_self
    omega
  have some : ∃ height, width n height ≤ 1 := ⟨n, single⟩
  refine ⟨Nat.find some, Nat.find_spec some, fun lower less => ?_⟩
  have := Nat.find_min some less
  omega

/-! ## Positions of leaves -/

/-- The leaves under a node. -/
def under (n height pos : Nat) : List Nat :=
  List.range' (pos * 2 ^ height) (min n ((pos + 1) * 2 ^ height) - pos * 2 ^ height)

theorem under_zero {n pos : Nat} (within : pos < n) : under n 0 pos = [pos] := by
  have one : min n ((pos + 1) * 2 ^ 0) - pos * 2 ^ 0 = 1 := by
    simp only [Nat.pow_zero, Nat.mul_one]
    omega
  rw [under, one]
  simp

theorem under_succ (n height pos : Nat) :
    under n (height + 1) pos = under n height (pos * 2) ++
      if pos * 2 + 1 < width n height then under n height (pos * 2 + 1) else [] := by
  have start : pos * 2 ^ (height + 1) = pos * 2 * 2 ^ height := by rw [Nat.pow_succ]; ring
  have stop : (pos + 1) * 2 ^ (height + 1) = pos * 2 * 2 ^ height + 2 ^ height + 2 ^ height := by
    rw [Nat.pow_succ]
    ring
  have middle : (pos * 2 + 1) * 2 ^ height = pos * 2 * 2 ^ height + 2 ^ height := by ring
  have last : (pos * 2 + 1 + 1) * 2 ^ height = pos * 2 * 2 ^ height + 2 ^ height + 2 ^ height := by ring
  unfold under
  simp only [start, stop, middle, last, lt_width_iff]
  generalize pos * 2 * 2 ^ height = first
  generalize 2 ^ height = step
  split
  · rename_i more
    have left : min n (first + step) - first = step := by omega
    have whole : min n (first + step + step) - first = step + (min n (first + step + step) - (first + step)) := by
      omega
    rw [left, whole, ← List.range'_append_1]
  · rename_i none
    have same : min n (first + step + step) = min n (first + step) := by omega
    rw [same, List.append_nil]

theorem under_top {n height : Nat} (single : width n height ≤ 1) : under n height 0 = List.range n := by
  have all : n ≤ 2 ^ height := by
    by_contra more
    have second : 1 < width n height := by
      rw [lt_width_iff]
      omega
    omega
  rw [under, List.range_eq_range']
  congr 1
  · omega
  · omega

theorem under_length_pos {n height pos : Nat} (within : pos < width n height) : 0 < (under n height pos).length := by
  rw [lt_width_iff] at within
  have positive : 0 < 2 ^ height := Nat.pow_pos (by decide)
  rw [under, List.length_range', Nat.succ_mul]
  omega

theorem lt_of_mem_under {n height pos leaf : Nat} (member : leaf ∈ under n height pos) : leaf < n := by
  rw [under, List.mem_range'_1] at member
  omega

/-! ## Nodes -/

section

variable {α : Type} (pair : α → α → α) (leaf : Nat → α) (n : Nat)

def node : Nat → Nat → α
  | 0, pos => leaf pos
  | height + 1, pos =>
      pair (node height (pos * 2))
        (if pos * 2 + 1 < width n height then node height (pos * 2 + 1) else node height (pos * 2))

def rightChild (height pos : Nat) : α :=
  if pos * 2 + 1 < width n height then node pair leaf n height (pos * 2 + 1) else node pair leaf n height (pos * 2)

theorem node_succ (height pos : Nat) :
    node pair leaf n (height + 1) pos =
      pair (node pair leaf n height (pos * 2)) (rightChild pair leaf n height pos) := rfl

def Hashed (left right : α) : Prop :=
  ∃ height pos, 1 < width n height ∧ pos < width n (height + 1) ∧
    left = node pair leaf n height (pos * 2) ∧ right = rightChild pair leaf n height pos

def level (height : Nat) : List α :=
  (List.range (width n height)).map (node pair leaf n height)

end

/-- The hashes of adjacent values; an odd last one is paired with itself. -/
def pairUp {α : Type} (pair : α → α → α) : List α → List α
  | [] => []
  | [last] => [pair last last]
  | left :: right :: rest => pair left right :: pairUp pair rest

section

variable {α : Type} {pair : α → α → α} {leaf : Nat → α} {n : Nat}

theorem getElem?_pairUp (values : List α) (index : Nat) :
    (pairUp pair values)[index]? =
      values[index * 2]?.map fun left => pair left (values[index * 2 + 1]?.getD left) := by
  induction values using pairUp.induct generalizing index with
  | case1 => simp [pairUp]
  | case2 last =>
      cases index with
      | zero => simp [pairUp]
      | succ index => simp [pairUp]
  | case3 left right rest ih =>
      cases index with
      | zero => simp [pairUp]
      | succ index =>
          have first : (index + 1) * 2 = index * 2 + 1 + 1 := by omega
          rw [pairUp, List.getElem?_cons_succ, ih, first]
          simp

theorem getElem?_level (height index : Nat) :
    (level pair leaf n height)[index]? =
      if index < width n height then some (node pair leaf n height index) else none := by
  rw [level, List.getElem?_map]
  split
  · rename_i within
    simp [List.getElem?_range within]
  · rename_i beyond
    rw [List.getElem?_eq_none (by simpa using beyond)]
    rfl

theorem pairUp_level (height : Nat) : pairUp pair (level pair leaf n height) = level pair leaf n (height + 1) := by
  apply List.ext_getElem?
  intro index
  rw [getElem?_pairUp, getElem?_level, getElem?_level, getElem?_level]
  have next := width_succ n height
  by_cases left : index * 2 < width n height
  · have parent : index < width n (height + 1) := by omega
    rw [if_pos left, if_pos parent, Option.map_some, node_succ, rightChild]
    by_cases right : index * 2 + 1 < width n height
    · rw [if_pos right, if_pos right, Option.getD_some]
    · rw [if_neg right, if_neg right, Option.getD_none]
  · have noParent : ¬ index < width n (height + 1) := by omega
    rw [if_neg left, if_neg noParent, Option.map_none]

/-! ## Collisions -/

/-- No two different pairs of those in question have the same hash. -/
def CollisionFree (pair : α → α → α) (Pairs : α → α → Prop) : Prop :=
  ∀ left right left' right', Pairs left right → Pairs left' right' → pair left right = pair left' right' →
    left = left' ∧ right = right'

variable {Pairs : α → α → Prop} {leaf' : Nat → α} {n' : Nat}

theorem leftmost_eq (free : CollisionFree pair Pairs)
    (hashed : ∀ left right, Hashed pair leaf n left right → Pairs left right)
    (hashed' : ∀ left right, Hashed pair leaf' n' left right → Pairs left right) (height height' : Nat)
    {pos pos' : Nat} (down : Nat) (within : pos < width n (height + down)) (within' : pos' < width n' (height' + down))
    (wide : ∀ lower < height + down, 1 < width n lower) (wide' : ∀ lower < height' + down, 1 < width n' lower)
    (same : node pair leaf n (height + down) pos = node pair leaf' n' (height' + down) pos') :
    node pair leaf n height (pos * 2 ^ down) = node pair leaf' n' height' (pos' * 2 ^ down) := by
  induction down generalizing pos pos' with
  | zero => simpa using same
  | succ down ih =>
      have children := free _ _ _ _
        (hashed _ _ ⟨height + down, pos, wide _ (by omega), within, rfl, rfl⟩)
        (hashed' _ _ ⟨height' + down, pos', wide' _ (by omega), within', rfl, rfl⟩) same
      have lower := ih (left_lt within) (left_lt within') (fun lower less => wide lower (by omega))
        (fun lower less => wide' lower (by omega)) children.1
      have shift : ∀ place : Nat, place * 2 ^ (down + 1) = place * 2 * 2 ^ down := by
        intro place
        rw [Nat.pow_succ]
        ring
      rw [shift, shift]
      exact lower

/-- A tree with different leaves whose pairs are among those in question. -/
structure Distinct (pair : α → α → α) (Pairs : α → α → Prop) (leaf : Nat → α) (n : Nat) : Prop where
  hashed : ∀ left right, Hashed pair leaf n left right → Pairs left right
  leaves : ∀ one < n, ∀ other < n, leaf one = leaf other → one = other

theorem Distinct.node_injective (distinct : Distinct pair Pairs leaf n) (free : CollisionFree pair Pairs)
    {height pos pos' : Nat} (within : pos < width n height) (within' : pos' < width n height)
    (wide : ∀ lower < height, 1 < width n lower)
    (same : node pair leaf n height pos = node pair leaf n height pos') : pos = pos' := by
  have leaves := leftmost_eq free distinct.hashed distinct.hashed 0 0 height
    (by simpa using within) (by simpa using within') (by simpa using wide) (by simpa using wide) (by simpa using same)
  have equal := distinct.leaves _ (lt_width_iff.mp within) _ (lt_width_iff.mp within') leaves
  exact Nat.eq_of_mul_eq_mul_right (Nat.pow_pos (by decide)) equal

theorem Distinct.no_twin (distinct : Distinct pair Pairs leaf n) (free : CollisionFree pair Pairs) {height pos : Nat}
    {twin : α} (wide : ∀ lower < height, 1 < width n lower) (within : pos * 2 + 1 < width n height)
    (left : twin = node pair leaf n height (pos * 2)) (right : twin = rightChild pair leaf n height pos) : False := by
  rw [rightChild, if_pos within] at right
  have same := distinct.node_injective free (by omega) within wide (left.symm.trans right)
  omega

/-- The nodes of two trees agree at a height. -/
structure Agree (pair : α → α → α) (leaf : Nat → α) (n : Nat) (leaf' : Nat → α) (n' height : Nat) : Prop where
  count : width n height = width n' height
  nodes : ∀ pos < width n height, node pair leaf n height pos = node pair leaf' n' height pos

theorem Agree.below (free : CollisionFree pair Pairs) (distinct : Distinct pair Pairs leaf n)
    (distinct' : Distinct pair Pairs leaf' n') {height : Nat} (wide : ∀ lower < height + 1, 1 < width n lower)
    (wide' : ∀ lower < height + 1, 1 < width n' lower) (agree : Agree pair leaf n leaf' n' (height + 1)) :
    Agree pair leaf n leaf' n' height := by
  have parents := width_succ n height
  have parents' := width_succ n' height
  have counts := agree.count
  have here := wide height (by omega)
  have here' := wide' height (by omega)
  have children : ∀ pos < width n (height + 1),
      node pair leaf n height (pos * 2) = node pair leaf' n' height (pos * 2) ∧
        rightChild pair leaf n height pos = rightChild pair leaf' n' height pos := by
    intro pos within
    exact free _ _ _ _ (distinct.hashed _ _ ⟨height, pos, here, within, rfl, rfl⟩)
      (distinct'.hashed _ _ ⟨height, pos, here', by omega, rfl, rfl⟩) (agree.nodes pos within)
  -- A last child without a brother would be a twin in the tree with one child more.
  have last := children (width n (height + 1) - 1) (by omega)
  have equal : width n height = width n' height := by
    rcases Nat.lt_trichotomy (width n height) (width n' height) with fewer | equal | more
    · have single : ¬ (width n (height + 1) - 1) * 2 + 1 < width n height := by omega
      rw [show rightChild pair leaf n height (width n (height + 1) - 1) =
        node pair leaf n height ((width n (height + 1) - 1) * 2) from if_neg single] at last
      exact (distinct'.no_twin free (fun lower less => wide' lower (by omega)) (by omega) last.1 last.2).elim
    · exact equal
    · have single : ¬ (width n (height + 1) - 1) * 2 + 1 < width n' height := by omega
      rw [show rightChild pair leaf' n' height (width n (height + 1) - 1) =
        node pair leaf' n' height ((width n (height + 1) - 1) * 2) from if_neg single] at last
      exact (distinct.no_twin free (fun lower less => wide lower (by omega)) (by omega) last.1.symm
        last.2.symm).elim
  refine ⟨equal, fun pos within => ?_⟩
  obtain ⟨left, right⟩ := children (pos / 2) (by omega)
  rcases Nat.mod_two_eq_zero_or_one pos with even | odd
  · have place : pos / 2 * 2 = pos := by omega
    rwa [place] at left
  · have place : pos / 2 * 2 + 1 = pos := by omega
    rw [rightChild, rightChild, place, if_pos within, if_pos (by omega)] at right
    exact right

theorem agree_leaves (free : CollisionFree pair Pairs) (distinct : Distinct pair Pairs leaf n)
    (distinct' : Distinct pair Pairs leaf' n') {height : Nat} (wide : ∀ lower < height, 1 < width n lower)
    (wide' : ∀ lower < height, 1 < width n' lower) (agree : Agree pair leaf n leaf' n' height) :
    Agree pair leaf n leaf' n' 0 := by
  induction height with
  | zero => exact agree
  | succ height ih =>
      exact ih (fun lower less => wide lower (by omega)) (fun lower less => wide' lower (by omega))
        (agree.below free distinct distinct' wide wide')

/-- A root does not stand at two heights when no leaf is the hash of a pair: on
the leftmost way down, the lower tree would end at a leaf that is a pair in the other. -/
theorem top_le_of_root (free : CollisionFree pair Pairs)
    (hashed : ∀ left right, Hashed pair leaf n left right → Pairs left right)
    (hashed' : ∀ left right, Hashed pair leaf' n' left right → Pairs left right)
    (fresh : ∀ left right, Pairs left right → ∀ pos < n, pair left right ≠ leaf pos) (nonempty : 0 < n)
    (nonempty' : 0 < n') {top top' : Nat} (isTop : Top n top) (isTop' : Top n' top')
    (root : node pair leaf n top 0 = node pair leaf' n' top' 0) : top' ≤ top := by
  by_contra lower
  obtain ⟨extra, rfl⟩ : ∃ extra, top' = extra + 1 + top := ⟨top' - top - 1, by omega⟩
  have within := width_pos nonempty (0 + top)
  have within' := width_pos nonempty' (extra + 1 + top)
  have first := leftmost_eq free hashed hashed' 0 (extra + 1) top within
    within' (by simpa using isTop.least) isTop'.least (by simpa using root)
  rw [Nat.zero_mul, node_succ] at first
  have pairs := hashed' _ _
    ⟨extra, 0, isTop'.least _ (by omega), width_pos nonempty' (extra + 1), rfl, rfl⟩
  exact fresh _ _ pairs 0 nonempty first.symm

theorem first_leaf_eq_of_root (free : CollisionFree pair Pairs)
    (hashed : ∀ left right, Hashed pair leaf n left right → Pairs left right)
    (hashed' : ∀ left right, Hashed pair leaf' n' left right → Pairs left right)
    (fresh : ∀ left right, Pairs left right → ∀ pos < n, pair left right ≠ leaf pos)
    (fresh' : ∀ left right, Pairs left right → ∀ pos < n', pair left right ≠ leaf' pos)
    (nonempty : 0 < n) (nonempty' : 0 < n') {top top' : Nat} (isTop : Top n top) (isTop' : Top n' top')
    (root : node pair leaf n top 0 = node pair leaf' n' top' 0) : leaf 0 = leaf' 0 := by
  have upper := top_le_of_root free hashed hashed' fresh nonempty nonempty' isTop isTop' root
  have lower := top_le_of_root free hashed' hashed fresh' nonempty' nonempty isTop' isTop root.symm
  have equal : top = top' := Nat.le_antisymm lower upper
  subst equal
  have within := width_pos nonempty (0 + top)
  have within' := width_pos nonempty' (0 + top)
  have first := leftmost_eq free hashed hashed' 0 0 top within within' (by simpa using isTop.least)
    (by simpa using isTop'.least) (by simpa using root)
  simpa [node] using first

/-- The root of a tree with different leaves, none of which is the hash of a pair,
determines the leaves and their number. -/
theorem leaves_eq_of_root (free : CollisionFree pair Pairs) (distinct : Distinct pair Pairs leaf n)
    (distinct' : Distinct pair Pairs leaf' n')
    (fresh : ∀ left right, Pairs left right → ∀ pos < n, pair left right ≠ leaf pos)
    (fresh' : ∀ left right, Pairs left right → ∀ pos < n', pair left right ≠ leaf' pos)
    (nonempty : 0 < n) (nonempty' : 0 < n') {top top' : Nat} (isTop : Top n top) (isTop' : Top n' top')
    (root : node pair leaf n top 0 = node pair leaf' n' top' 0) :
    n = n' ∧ ∀ pos < n, leaf pos = leaf' pos := by
  have upper := top_le_of_root free distinct.hashed distinct'.hashed fresh nonempty nonempty' isTop isTop' root
  have lower := top_le_of_root free distinct'.hashed distinct.hashed fresh' nonempty' nonempty isTop' isTop root.symm
  have equal : top = top' := Nat.le_antisymm lower upper
  subst equal
  have roots : Agree pair leaf n leaf' n' top := by
    refine ⟨by rw [isTop.width_eq nonempty, isTop'.width_eq nonempty'], fun pos within => ?_⟩
    have zero : pos = 0 := by
      rw [isTop.width_eq nonempty] at within
      omega
    rw [zero]
    exact root
  have leaves := agree_leaves free distinct distinct' isTop.least isTop'.least roots
  refine ⟨by simpa using leaves.count, fun pos within => ?_⟩
  exact leaves.nodes pos (by simpa using within)

/-! ## Branches -/

/-- The other child of the parent of a node; an odd last node is its own brother. -/
def sibling (pair : α → α → α) (leaf : Nat → α) (n height pos : Nat) : α :=
  node pair leaf n height (min (pos ^^^ 1) (width n height - 1))

/-- The two children whose hash is the parent of a node at `pos`. -/
def children (value otherside : α) (pos : Nat) : α × α :=
  if pos % 2 = 1 then (otherside, value) else (value, otherside)

theorem node_parent {height pos : Nat} (within : pos < width n height) :
    node pair leaf n (height + 1) (pos / 2) =
      pair (children (node pair leaf n height pos) (sibling pair leaf n height pos) pos).1
        (children (node pair leaf n height pos) (sibling pair leaf n height pos) pos).2 := by
  rw [node_succ, rightChild, children, sibling]
  rcases Nat.mod_two_eq_zero_or_one pos with even | odd
  · have place : pos / 2 * 2 = pos := by omega
    have notOdd : ¬ pos % 2 = 1 := by omega
    rw [Nat.xor_one_of_even (Nat.even_iff.mpr even), place, if_neg notOdd]
    split
    · rename_i right
      have brother : min (pos + 1) (width n height - 1) = pos + 1 := by omega
      rw [brother]
    · rename_i last
      have self : min (pos + 1) (width n height - 1) = pos := by omega
      rw [self]
  · have place : pos / 2 * 2 + 1 = pos := by omega
    have left : pos / 2 * 2 = pos - 1 := by omega
    have brother : min (pos - 1) (width n height - 1) = pos - 1 := by omega
    rw [Nat.xor_one_of_odd (Nat.odd_iff.mpr odd), place, if_pos within, if_pos odd, brother, left]

/-- The hash at the end of a branch that begins at `pos`. -/
def climb (pair : α → α → α) : α → List α → Nat → α
  | value, [], _ => value
  | value, otherside :: branch, pos =>
      let both := children value otherside pos
      climb pair (pair both.1 both.2) branch (pos / 2)

def climbed (pair : α → α → α) : α → List α → Nat → List (α × α)
  | _, [], _ => []
  | value, otherside :: branch, pos =>
      let both := children value otherside pos
      both :: climbed pair (pair both.1 both.2) branch (pos / 2)

/-- A branch as long as the tree is high ends at the root only if it begins at the node. -/
theorem climb_injective (free : CollisionFree pair Pairs)
    (hashed : ∀ left right, Hashed pair leaf n left right → Pairs left right) {value : α} {branch : List α}
    {height pos : Nat} (onBranch : ∀ both ∈ climbed pair value branch pos, Pairs both.1 both.2)
    (wide : ∀ lower < height + branch.length, 1 < width n lower) (within : pos < width n height)
    (root : climb pair value branch pos = node pair leaf n (height + branch.length) 0)
    (single : width n (height + branch.length) ≤ 1) : value = node pair leaf n height pos := by
  induction branch generalizing value height pos with
  | nil =>
      rw [List.length_nil, Nat.add_zero] at root single
      have first : pos = 0 := by omega
      rw [first]
      exact root
  | cons otherside branch ih =>
      have shift : height + (otherside :: branch).length = height + 1 + branch.length := by
        rw [List.length_cons]
        omega
      rw [shift] at wide root single
      have next := width_succ n height
      have parent := ih (fun both member => onBranch both (List.mem_cons_of_mem _ member)) wide (by omega) root single
      have both := free _ _ _ _ (onBranch _ List.mem_cons_self)
        (hashed _ _ ⟨height, pos / 2, wide height (by omega), by omega, rfl, rfl⟩) parent
      rw [children, rightChild] at both
      rcases Nat.mod_two_eq_zero_or_one pos with even | odd
      · have place : pos / 2 * 2 = pos := by omega
        rw [if_neg (by omega), place] at both
        exact both.1
      · have place : pos / 2 * 2 + 1 = pos := by omega
        rw [if_pos odd, place, if_pos within] at both
        exact both.2

end

end BitCrystal.Data.Merkle
