import BitCrystal.ChainState
import BitCrystal.Data.Forest

namespace BitCrystal

open Data

/-! # The block tree and the search for the fork -/

namespace BlockMap

def parent (map : BlockMap) (hash : UInt256) : Option UInt256 :=
  (map hash).bind CBlockIndex.pprev

def height (map : BlockMap) (hash : UInt256) : Int :=
  ((map hash).map CBlockIndex.nHeight).getD 0

/-- Every entry owns its hash and stands one above its parent. -/
structure Tree (map : BlockMap) : Prop where
  owned : ∀ hash index, map hash = some index → index.phashBlock = some hash
  above : ∀ hash index pprev, map hash = some index → index.pprev = some pprev →
    ∃ previous, map pprev = some previous ∧ index.nHeight = previous.nHeight + 1
  nonneg : ∀ hash index, map hash = some index → 0 ≤ index.nHeight

theorem height_of {map : BlockMap} {hash : UInt256} {index : CBlockIndex} (known : map hash = some index) :
    map.height hash = index.nHeight := by
  simp [height, known]

theorem parent_of {map : BlockMap} {hash : UInt256} {index : CBlockIndex} (known : map hash = some index) :
    map.parent hash = index.pprev := by
  simp [parent, known]

theorem Tree.graded {map : BlockMap} (tree : map.Tree) : Graded map.parent map.height := by
  intro child above up
  obtain ⟨index, known, pprev⟩ := Option.bind_eq_some_iff.mp up
  obtain ⟨previous, found, one⟩ := tree.above child index above known pprev
  rw [height_of known, height_of found, one]

end BlockMap

/-! ## Entries whose status changes -/

namespace CBlockIndex

/-- An entry without what ConnectBlock and the failure flags change in it. -/
def skeleton (index : CBlockIndex) : CBlockIndex :=
  { index with nStatus := 0, nUndoPos := 0 }

/-- An entry without what changes after it has entered the tree. -/
def shape (index : CBlockIndex) : CBlockIndex :=
  { index with nStatus := 0, nUndoPos := 0, pnext := none }

theorem shape_fields {index other : CBlockIndex} (equal : index.shape = other.shape) :
    index.phashBlock = other.phashBlock ∧ index.pprev = other.pprev ∧ index.nHeight = other.nHeight ∧
      index.nChainWork = other.nChainWork := by
  simp only [shape, CBlockIndex.mk.injEq] at equal
  exact ⟨equal.1, equal.2.1, equal.2.2.2.1, equal.2.2.2.2.2.2.2.1⟩

end CBlockIndex

namespace BlockMap

/-- Two block indexes with the same entries as far as `view` shows. -/
def Same (view : CBlockIndex → CBlockIndex) (map other : BlockMap) : Prop :=
  ∀ hash, (other hash).map view = (map hash).map view

abbrev SameTree : BlockMap → BlockMap → Prop := Same CBlockIndex.skeleton

/-- The same entries, but for status, undo position and successor. -/
abbrev SameShape : BlockMap → BlockMap → Prop := Same CBlockIndex.shape

variable {view : CBlockIndex → CBlockIndex} {map between other : BlockMap}

theorem Same.refl (map : BlockMap) : Same view map map :=
  fun _ => rfl

theorem Same.trans (first : Same view map between) (second : Same view between other) :
    Same view map other :=
  fun hash => (second hash).trans (first hash)

theorem Same.symm (same : Same view map other) : Same view other map :=
  fun hash => (same hash).symm

theorem Same.update (hash : UInt256) {change : CBlockIndex → CBlockIndex}
    (keeps : ∀ index, view (change index) = view index) : Same view map (map.update hash change) := by
  intro other
  unfold BlockMap.update
  split
  · cases map other with
    | none => rfl
    | some index => simp [keeps]
  · rfl

theorem Same.entry (same : Same view map other) {hash : UInt256} {index : CBlockIndex}
    (known : other hash = some index) : ∃ before, map hash = some before ∧ view index = view before := by
  have both := same hash
  rw [known] at both
  obtain ⟨before, found, equal⟩ := Option.map_eq_some_iff.mp both.symm
  exact ⟨before, found, equal.symm⟩

theorem Same.field {α : Type} (same : Same view map other) (field : CBlockIndex → α)
    (kept : ∀ index, field (view index) = field index) (hash : UInt256) :
    (other hash).map field = (map hash).map field := by
  have both := congrArg (Option.map field) (same hash)
  simpa [Function.comp_def, kept] using both

theorem SameTree.shape (same : SameTree map other) : SameShape map other :=
  same.field CBlockIndex.shape fun _ => rfl

theorem SameShape.parent_eq (same : SameShape map other) : other.parent = map.parent := by
  funext hash
  have both := same.field CBlockIndex.pprev (fun _ => rfl) hash
  unfold parent
  cases found : map hash <;> cases also : other hash <;> simp_all

theorem SameShape.height_eq (same : SameShape map other) : other.height = map.height := by
  funext hash
  simp only [height, same.field CBlockIndex.nHeight (fun _ => rfl) hash]

theorem SameShape.tree (same : SameShape map other) (tree : map.Tree) : other.Tree := by
  constructor
  · intro hash index known
    obtain ⟨before, found, equal⟩ := same.entry known
    rw [(CBlockIndex.shape_fields equal).1]
    exact tree.owned hash before found
  · intro hash index pprev known up
    obtain ⟨before, found, equal⟩ := same.entry known
    rw [(CBlockIndex.shape_fields equal).2.1] at up
    obtain ⟨previous, parent, one⟩ := tree.above hash before pprev found up
    obtain ⟨after, parentAfter, equalParent⟩ := same.symm.entry parent
    refine ⟨after, parentAfter, ?_⟩
    rw [(CBlockIndex.shape_fields equal).2.2.1, one, (CBlockIndex.shape_fields equalParent).2.2.1]
  · intro hash index known
    obtain ⟨before, found, equal⟩ := same.entry known
    rw [(CBlockIndex.shape_fields equal).2.2.1]
    exact tree.nonneg hash before found

end BlockMap

/-! ## The fork -/

section

variable {map : BlockMap}

theorem descendTo_spec {nHeight : Int} {room : Nat} {plonger low : UInt256}
    (run : descendTo map nHeight room plonger = .ok low) :
    Ancestor map.parent low plonger ∧ map.height low ≤ nHeight ∧
      ∀ ancestor, Ancestor map.parent ancestor plonger → map.height ancestor ≤ nHeight →
        Ancestor map.parent ancestor low := by
  induction room generalizing plonger with
  | zero => contradiction
  | succ room ih =>
      simp only [descendTo, bind_eq_ok, expect_eq_ok] at run
      obtain ⟨index, known, rest⟩ := run
      split at rest
      · rename_i higher
        simp only [bind_eq_ok, expect_eq_ok] at rest
        obtain ⟨pprev, up, rest⟩ := rest
        obtain ⟨path, low, keeps⟩ := ih rest
        have step : map.parent plonger = some pprev := (BlockMap.parent_of known).trans up
        refine ⟨path.trans (.of_parent step), low, ?_⟩
        intro ancestor above atMost
        cases above.cases_parent with
        | inl same =>
            rw [same, BlockMap.height_of known] at atMost
            omega
        | inr further =>
            obtain ⟨parent, up', rest'⟩ := further
            rw [step] at up'
            cases up'
            exact keeps ancestor rest' atMost
      · rename_i lower
        rw [pure_eq_ok] at rest
        subst rest
        refine ⟨.refl _, ?_, fun _ above _ => above⟩
        rw [BlockMap.height_of known]
        omega

theorem findFork_spec (tree : map.Tree) {room : Nat} {pfork plonger fork : UInt256}
    (run : findFork map room pfork plonger = .ok fork) :
    Ancestor map.parent fork pfork ∧ Ancestor map.parent fork plonger ∧
      ∀ ancestor, Ancestor map.parent ancestor pfork → Ancestor map.parent ancestor plonger →
        Ancestor map.parent ancestor fork := by
  induction room generalizing pfork plonger with
  | zero => contradiction
  | succ room ih =>
      rw [findFork] at run
      split at run
      · rename_i same
        cases run
        exact ⟨.refl _, same ▸ .refl _, fun _ above _ => above⟩
      · simp only [bind_eq_ok, expect_eq_ok] at run
        obtain ⟨index, known, low, descent, rest⟩ := run
        obtain ⟨path, atMost, keeps⟩ := descendTo_spec descent
        have common : ∀ ancestor, Ancestor map.parent ancestor pfork →
            Ancestor map.parent ancestor plonger → Ancestor map.parent ancestor low := by
          intro ancestor above also
          apply keeps ancestor also
          rw [← BlockMap.height_of known]
          exact above.height_le tree.graded
        split at rest
        · rename_i same
          rw [pure_eq_ok] at rest
          subst rest
          exact ⟨.refl _, same ▸ path, fun _ above _ => above⟩
        · rename_i different
          simp only [bind_eq_ok, expect_eq_ok] at rest
          obtain ⟨pprev, up, rest⟩ := rest
          have step : map.parent pfork = some pprev := (BlockMap.parent_of known).trans up
          obtain ⟨first, second, highest⟩ := ih rest
          refine ⟨first.trans (.of_parent step), second.trans path, ?_⟩
          intro ancestor above also
          have lowAbove := common ancestor above also
          cases above.cases_parent with
          | inl same =>
              -- the tip of the branch is above `low` and not lower, so it is `low`
              rw [same] at lowAbove
              have equal := lowAbove.eq_of_height_le tree.graded (by
                rw [BlockMap.height_of known]
                exact atMost)
              exact absurd equal different
          | inr further =>
              obtain ⟨parent, up', rest'⟩ := further
              rw [step] at up'
              cases up'
              exact highest ancestor rest' lowAbove

/-- The entries from `start` down to, and without, `stop`. -/
def PathDown (map : BlockMap) : Option UInt256 → List UInt256 → Option UInt256 → Prop
  | start, [], stop => start = stop
  | start, hash :: rest, stop =>
      start = some hash ∧ ∃ index, map hash = some index ∧ PathDown map index.pprev rest stop

theorem entriesDown_path {stop start : Option UInt256} {room : Nat} {hashes : List UInt256}
    (run : entriesDown map stop room start = .ok hashes) : PathDown map start hashes stop := by
  induction room generalizing start hashes with
  | zero => contradiction
  | succ room ih =>
      rw [entriesDown] at run
      split at run
      · cases run
        assumption
      · simp only [bind_eq_ok, expect_eq_ok, pure_eq_ok] at run
        obtain ⟨hash, known, index, found, rest, more, rfl⟩ := run
        exact ⟨known, index, found, ih more⟩

theorem PathDown.ancestor {start stop : Option UInt256} {hashes : List UInt256} {top : UInt256}
    (path : PathDown map start hashes stop) (first : start = some top) :
    ∀ hash ∈ hashes, Ancestor map.parent hash top := by
  induction hashes generalizing start top with
  | nil => simp
  | cons head rest ih =>
      obtain ⟨same, index, known, more⟩ := path
      rw [first] at same
      cases same
      intro hash member
      rcases List.mem_cons.mp member with rfl | later
      · exact .refl _
      · cases up : index.pprev with
        | none =>
            rw [up] at more
            cases rest with
            | nil => contradiction
            | cons _ _ =>
                obtain ⟨impossible, _⟩ := more
                contradiction
        | some pprev =>
            exact (ih more up hash later).trans (.of_parent ((BlockMap.parent_of known).trans up))

theorem PathDown.stop_lower {start : Option UInt256} {stop : UInt256} {hashes : List UInt256}
    (tree : map.Tree) (path : PathDown map start hashes (some stop)) :
    ∀ hash ∈ hashes, map.height stop < map.height hash := by
  induction hashes generalizing start with
  | nil => simp
  | cons head rest ih =>
      obtain ⟨_, index, known, more⟩ := path
      intro hash member
      rcases List.mem_cons.mp member with rfl | later
      · cases rest with
        | nil =>
            have step : map.parent hash = some stop := (BlockMap.parent_of known).trans more
            have one := tree.graded _ _ step
            omega
        | cons second others =>
            have below := ih more second List.mem_cons_self
            have step : map.parent hash = some second := (BlockMap.parent_of known).trans more.1
            have one := tree.graded _ _ step
            omega
      · exact ih more hash later

theorem PathDown.mem_or_ancestor {start stop : Option UInt256} {hashes : List UInt256} {top ancestor : UInt256}
    (path : PathDown map start hashes stop) (first : start = some top)
    (above : Ancestor map.parent ancestor top) :
    ancestor ∈ hashes ∨ ∃ fork, stop = some fork ∧ Ancestor map.parent ancestor fork := by
  induction hashes generalizing start top with
  | nil => exact Or.inr ⟨top, path.symm.trans first, above⟩
  | cons head rest ih =>
      obtain ⟨same, index, known, more⟩ := path
      rw [first] at same
      cases same
      cases above.cases_parent with
      | inl equal => exact Or.inl (equal ▸ List.mem_cons_self)
      | inr further =>
          obtain ⟨parent, up, rest'⟩ := further
          have pprev : index.pprev = some parent := (BlockMap.parent_of known).symm.trans up
          cases ih more pprev rest' with
          | inl later => exact Or.inl (List.mem_cons_of_mem head later)
          | inr stops => exact Or.inr stops

/-- What planSwitch finds. -/
structure Plans (map : BlockMap) (tip : Option UInt256) (pindexNew : UInt256) (switch : Switch)
    (pfork : Option UInt256) : Prop where
  disconnect : PathDown map tip switch.vDisconnect pfork
  connect : PathDown map (some pindexNew) switch.vConnect.reverse pfork
  fork : ∀ best, tip = some best → ∃ fork, pfork = some fork ∧
    ∀ ancestor, Ancestor map.parent ancestor best → Ancestor map.parent ancestor pindexNew →
      Ancestor map.parent ancestor fork
  same : tip = some pindexNew → switch.vDisconnect = [] ∧ switch.vConnect = []

theorem planSwitch_plans (tree : map.Tree) {tip : Option UInt256} {pindexNew : UInt256} {switch : Switch}
    (run : planSwitch map tip pindexNew = .ok switch) : ∃ pfork, Plans map tip pindexNew switch pfork := by
  simp only [planSwitch, bind_eq_ok, pure_eq_ok] at run
  obtain ⟨pfork, search, vDisconnect, down, vConnect, up, rfl⟩ := run
  have disconnect := entriesDown_path down
  have connect := entriesDown_path up
  refine ⟨pfork, disconnect, by simpa using connect, ?_, ?_⟩
  · intro best known
    subst known
    cases found : findFork map (heightRoom map best) best pindexNew with
    | error reason => simp [forkOf, found, Except.map] at search
    | ok fork =>
        simp only [forkOf, found, Except.map, Except.ok.injEq] at search
        exact ⟨fork, search.symm, (findFork_spec tree found).2.2⟩
  · intro known
    subst known
    have fork : pfork = some pindexNew := by
      cases room : heightRoom map pindexNew with
      | zero => simp [forkOf, room, findFork, Except.map] at search
      | succ rest => simpa [forkOf, room, findFork, Except.map, eq_comm] using search
    subst fork
    have nothing : ∀ room hashes, entriesDown map (some pindexNew) (room + 1) (some pindexNew) = .ok hashes →
        hashes = [] := by
      intro room hashes run
      simpa [entriesDown, eq_comm] using run
    rw [nothing _ _ down, nothing _ _ up]
    exact ⟨rfl, rfl⟩

end

end BitCrystal
